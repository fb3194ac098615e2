/-
**The lexical grammar of preprocessing tokens.**

What the lexer does is said without scanning.  A lexeme is a text of one of four shapes, and it
ends where the text after it cannot go on with it; a text is read as tokens when it is made of
blanks and of lexemes that end where the next part begins.  The scanners find exactly the lexemes
that end in this way, and the lexer succeeds on exactly the texts that can be read, with the tokens
that they are read as.

Main definitions:

* `VariadicMacros.Lexeme.isLexeme` — a text is a lexeme of a kind;
* `VariadicMacros.Lexeme.endsBefore` — a lexeme ends where a text begins;
* `VariadicMacros.Token.Reads` — a text is read as tokens.

Main results:

* `VariadicMacros.Lexeme.scan_eq_ok_iff` — **the lexeme at the start of a text**;
* `VariadicMacros.Token.lex_eq_ok_iff` — **the lexer follows the grammar**;
* `VariadicMacros.Token.Reads.append_blank` — texts with a blank between them are read one after
  the other.
-/

import Mathlib
import VariadicMacros.Token.Lexer

set_option autoImplicit false

namespace VariadicMacros

open Text

namespace Text

theorem isBlank_eq_false_of_isNameChar {c : Char} (h : isNameChar c = true) :
    isBlank c = false := by
  -- The code of a name character lies between those of `0` and `z`, and no blank has such a code.
  have hge : 48 ≤ c.toNat ∧ c.toNat ≤ 122 := by
    simp only [isNameChar, Char.isAlphanum, Char.isAlpha, Char.isUpper, Char.isLower,
      Char.isDigit, Bool.or_eq_true, beq_iff_eq, Bool.and_eq_true, decide_eq_true_eq,
      UInt32.le_iff_toNat_le, Char.toNat] at h ⊢
    rcases h with rfl | ⟨h, h'⟩ | ⟨h, h'⟩ <;> simp_all <;> omega
  simp only [isBlank, Bool.or_eq_false_iff, Bool.and_eq_false_iff, decide_eq_false_iff_not,
    beq_eq_false_iff_ne, ne_eq]
  omega

theorem isNameStart_eq_false_of_isDigit {c : Char} (h : c.isDigit = true) :
    isNameStart c = false := by
  simp only [isNameStart, Char.isAlpha, Char.isUpper, Char.isLower, Char.isDigit,
    Bool.or_eq_false_iff, Bool.and_eq_true, Bool.and_eq_false_iff, decide_eq_true_eq,
    decide_eq_false_iff_not, beq_eq_false_iff_ne, UInt32.le_iff_toNat_le, ne_eq] at h ⊢
  refine ⟨?_, ?_⟩
  · rintro rfl
    exact absurd h.2 (by decide)
  · have h57 : '9'.val.toNat = 57 := rfl
    have h65 : 'A'.val.toNat = 65 := rfl
    have h97 : 'a'.val.toNat = 97 := rfl
    omega

end Text

namespace Lexeme

/-! ### The shapes of lexemes -/

/-- Whether characters go on with a number after the character `previous`. -/
def continuesNumber (previous : Char) : List Char → Bool
  | [] => true
  | c :: cs => isNumberChar previous c && continuesNumber c cs

/-- Whether the last character of a text, and none before it, is the quote that closes a
literal. -/
def closesLiteral (quote : Char) (escaped : Bool) : List Char → Bool
  | [] => false
  | c :: cs =>
    if escaped then closesLiteral quote false cs
    else if c = '\\' then closesLiteral quote true cs
    else if c = quote then cs.isEmpty
    else if c = '\n' then false
    else closesLiteral quote false cs

/-- Whether a text is a number: it starts with a digit, or with a point and a digit. -/
def isNumber : List Char → Bool
  | [] => false
  | c :: cs => (c.isDigit || (c == '.' && startsWithDigit cs)) && continuesNumber c cs

/-- Whether a text is a string or character literal with its quotes. -/
def isQuoted : List Char → Bool
  | [] => false
  | c :: cs => (c == '"' || c == '\'') && closesLiteral c false cs

/-- Whether a text is a lexeme of a kind. -/
def isLexeme : Kind → List Char → Bool
  | .identifier, cs => isIdentifier cs
  | .number, cs => isNumber cs
  | .literal, cs => isQuoted cs
  | .punctuator, cs => punctuators.contains cs

/-- Whether a lexeme ends where the text `rest` begins: a name or a number does not go on, and no
longer punctuator, or number that starts with a point, begins at the same place. -/
def endsBefore : Kind → List Char → List Char → Bool
  | .identifier, _, rest => !rest.head?.any isNameChar
  | .number, text, rest => !rest.head?.any (isNumberChar (text.getLastD ' '))
  | .literal, _, _ => true
  | .punctuator, text, rest =>
    !(text == ['.'] && startsWithDigit rest) &&
      !punctuators.any fun p => text.length < p.length && p.isPrefixOf (text ++ rest)

theorem ne_nil_of_isLexeme {k : Kind} {cs : List Char} (h : isLexeme k cs = true) : cs ≠ [] := by
  rintro rfl
  cases k <;> revert h <;> decide

/-! ### The scanners -/

/-- A number is scanned as far as its characters go on. -/
theorem scanNumber_eq {previous : Char} {more rest : List Char}
    (h : continuesNumber previous more = true)
    (hrest : rest.head?.any (isNumberChar (more.getLastD previous)) = false)
    (taken : List Char) :
    scanNumber previous taken (more ++ rest) = (taken.reverse ++ more, rest) := by
  induction more generalizing previous taken with
  | nil =>
      cases rest with
      | nil => simp [scanNumber]
      | cons c rest =>
          have hc : isNumberChar previous c = false := by simpa using hrest
          simp [scanNumber, hc]
  | cons c more ih =>
      rw [continuesNumber, Bool.and_eq_true] at h
      rw [List.getLastD_cons] at hrest
      rw [List.cons_append, scanNumber, if_pos h.1, ih h.2 hrest]
      simp

/-- What a number is scanned as. -/
theorem exists_scanNumber (previous : Char) (taken cs : List Char) :
    ∃ more rest, scanNumber previous taken cs = (taken.reverse ++ more, rest) ∧
      more ++ rest = cs ∧ continuesNumber previous more = true ∧
      rest.head?.any (isNumberChar (more.getLastD previous)) = false := by
  induction cs generalizing previous taken with
  | nil => exact ⟨[], [], by simp [scanNumber], rfl, rfl, rfl⟩
  | cons c cs ih =>
      rw [scanNumber]
      by_cases hc : isNumberChar previous c = true
      · obtain ⟨more, rest, hscan, happ, hmore, hrest⟩ := ih c (c :: taken)
        refine ⟨c :: more, rest, ?_, by simp [happ], by simp [continuesNumber, hc, hmore], ?_⟩
        · rw [if_pos hc, hscan]
          simp
        · rw [List.getLastD_cons]
          exact hrest
      · refine ⟨[], c :: cs, by rw [if_neg hc]; simp, rfl, rfl, ?_⟩
        simpa using hc

/-- A literal is scanned up to the quote that closes it. -/
theorem scanLiteral_eq_some_iff {quote : Char} {escaped : Bool} {taken cs text rest : List Char} :
    scanLiteral quote escaped taken cs = some (text, rest) ↔
      ∃ more, text = taken.reverse ++ more ∧ more ++ rest = cs ∧
        closesLiteral quote escaped more = true := by
  induction cs generalizing escaped taken with
  | nil =>
      constructor
      · intro h
        cases h
      · rintro ⟨more, -, happ, hcloses⟩
        rw [(List.append_eq_nil_iff.1 happ).1] at hcloses
        cases hcloses
  | cons c cs ih =>
      -- What is taken of the text starts with its first character.
      have hstart : (∃ more, text = taken.reverse ++ more ∧ more ++ rest = c :: cs ∧
            closesLiteral quote escaped more = true) ↔
          ∃ more, text = (c :: taken).reverse ++ more ∧ more ++ rest = cs ∧
            closesLiteral quote escaped (c :: more) = true := by
        constructor
        · rintro ⟨more, rfl, happ, hcloses⟩
          cases more with
          | nil => cases hcloses
          | cons d more =>
              rw [List.cons_append, List.cons.injEq] at happ
              obtain ⟨rfl, happ⟩ := happ
              exact ⟨more, by simp, happ, hcloses⟩
        · rintro ⟨more, rfl, happ, hcloses⟩
          exact ⟨c :: more, by simp, by simp [happ], hcloses⟩
      rw [hstart, scanLiteral]
      simp only [closesLiteral]
      split
      · exact ih
      · split
        · exact ih
        · split
          · constructor
            · intro h
              cases h
              exact ⟨[], by simp, rfl, rfl⟩
            · rintro ⟨more, rfl, rfl, hempty⟩
              rw [List.isEmpty_iff.1 hempty]
              simp
          · split
            · simp
            · exact ih

/-- The punctuator that is found is the longest one at the start of a text. -/
theorem find_punctuator_iff {cs p : List Char} :
    punctuators.find? (·.isPrefixOf cs) = some p ↔
      p ∈ punctuators ∧ p <+: cs ∧ ∀ q ∈ punctuators, p.length < q.length → ¬ q <+: cs := by
  constructor
  · intro h
    obtain ⟨hp, before, after, hsplit, hbefore⟩ := List.find?_eq_some_iff_append.1 h
    rw [List.isPrefixOf_iff_prefix] at hp
    refine ⟨List.mem_of_find?_eq_some h, hp, fun q hq hlength hprefix => ?_⟩
    have hpairwise := pairwise_punctuators
    rw [hsplit] at hq hpairwise
    rcases List.mem_append.1 hq with hq | hq
    · have hnot := hbefore q hq
      rw [List.isPrefixOf_iff_prefix.2 hprefix] at hnot
      cases hnot
    · rcases List.mem_cons.1 hq with rfl | hq
      · exact Nat.lt_irrefl _ hlength
      · have hnot := (List.pairwise_cons.1 (List.pairwise_append.1 hpairwise).2.1).1 q hq
        have hprefix := List.prefix_of_prefix_length_le hp hprefix (Nat.le_of_lt hlength)
        rw [List.isPrefixOf_iff_prefix.2 hprefix] at hnot
        cases hnot
  · rintro ⟨hp, hprefix, hlongest⟩
    obtain ⟨before, after, hsplit⟩ := List.append_of_mem hp
    refine List.find?_eq_some_iff_append.2
      ⟨List.isPrefixOf_iff_prefix.2 hprefix, before, after, hsplit, fun q hq => ?_⟩
    have hmem : q ∈ punctuators := by
      rw [hsplit]
      exact List.mem_append_left _ hq
    have hpairwise := pairwise_punctuators
    rw [hsplit] at hpairwise
    have hnot := (List.pairwise_append.1 hpairwise).2.2 q hq p List.mem_cons_self
    rw [Bool.not_eq_true', Bool.eq_false_iff]
    intro hq'
    rw [List.isPrefixOf_iff_prefix] at hq'
    rcases Nat.lt_or_ge p.length q.length with hlt | hle
    · exact hlongest q hmem hlt hq'
    · have hprefix := List.prefix_of_prefix_length_le hq' hprefix hle
      rw [List.isPrefixOf_iff_prefix.2 hprefix] at hnot
      cases hnot

/-! ### The lexeme at the start of a text -/

/-- A punctuator ends when no longer one begins at the same place, and no number does. -/
theorem endsBefore_punctuator_iff {cs rest : List Char} :
    endsBefore .punctuator cs rest = true ↔
      ¬ (cs = ['.'] ∧ startsWithDigit rest = true) ∧
        ∀ p ∈ punctuators, cs.length < p.length → ¬ p <+: cs ++ rest := by
  simp only [endsBefore, Bool.and_eq_true, Bool.not_eq_true', Bool.and_eq_false_iff,
    beq_eq_false_iff_ne, List.any_eq_false, decide_eq_true_eq, List.isPrefixOf_iff_prefix, not_and,
    Bool.not_eq_true, ne_eq]
  exact and_congr_left fun _ => or_iff_not_imp_left.trans (by rw [not_not])

/-- A punctuator starts with a character of its own. -/
theorem head_punctuator {c : Char} {cs : List Char} (h : c :: cs ∈ punctuators) :
    isNameStart c = false ∧ c.isDigit = false ∧ (c == '"' || c == '\'') = false ∧
      isBlank c = false := by
  have hall : ∀ p ∈ punctuators, p.head?.any (fun c =>
      isNameStart c || c.isDigit || (c == '"' || c == '\'') || isBlank c) = false := by decide
  have hc := hall _ h
  simp only [List.head?_cons, Option.any_some, Bool.or_eq_false_iff] at hc ⊢
  exact ⟨hc.1.1.1, hc.1.1.2, hc.1.2, hc.2⟩

/-- A punctuator that starts with a point and is followed by a digit is the point alone. -/
theorem startsWithDigit_eq_false {cs rest : List Char} (h : '.' :: cs ∈ punctuators)
    (hrest : startsWithDigit rest = true → '.' :: cs ≠ ['.']) :
    startsWithDigit (cs ++ rest) = false := by
  have hpoints : ∀ p ∈ punctuators, p.head? = some '.' → p = ['.'] ∨ p = ['.', '.', '.'] := by
    decide
  rcases hpoints _ h rfl with heq | heq
  · cases heq
    rw [Bool.eq_false_iff]
    exact fun hdigit => hrest hdigit rfl
  · cases heq
    rfl

/-- A number that starts with a point has taken the digit after it. -/
theorem startsWithDigit_of_append {more rest : List Char}
    (h : startsWithDigit (more ++ rest) = true)
    (hrest : rest.head?.any (isNumberChar (more.getLastD '.')) = false) :
    startsWithDigit more = true := by
  cases more with
  | cons d more => exact h
  | nil =>
      cases rest with
      | nil => cases h
      | cons d rest =>
          have hd : d.isDigit = true := h
          simp [isNumberChar, Char.isAlphanum, hd] at hrest

/-- What is scanned is a lexeme, and it ends where it is left. -/
theorem isLexeme_of_scan {c : Char} {cs : List Char} {l : Lexeme} (h : scan c cs = .ok l) :
    isLexeme l.kind l.text = true ∧ endsBefore l.kind l.text l.rest = true := by
  unfold scan at h
  split at h
  · next hc =>
    cases h
    simp only [scanName_eq, isLexeme, endsBefore, List.reverse_singleton, List.singleton_append,
      isIdentifier, hc, Bool.true_and]
    refine ⟨List.all_takeWhile, ?_⟩
    have hhead := List.head?_dropWhile_not isNameChar cs
    cases hd : cs.dropWhile isNameChar with
    | nil => rfl
    | cons d ds =>
        rw [hd] at hhead
        simpa using hhead
  · split at h
    · next hc =>
      cases h
      obtain ⟨more, rest, hscan, rfl, hmore, hrest⟩ := exists_scanNumber c [c] cs
      have hstart : (c.isDigit || (c == '.' && startsWithDigit more)) = true := by
        rw [Bool.or_eq_true, Bool.and_eq_true, beq_iff_eq] at hc ⊢
        refine hc.imp id ?_
        rintro ⟨rfl, hdigit⟩
        exact ⟨rfl, startsWithDigit_of_append hdigit hrest⟩
      rw [hscan]
      simp only [List.reverse_singleton, List.singleton_append, isLexeme, isNumber, endsBefore,
        List.getLastD_cons, hstart, hmore, hrest, Bool.and_self, Bool.not_false, and_self]
    · next hdigit =>
      split at h
      · next hc =>
        split at h
        · next split hs =>
          cases h
          obtain ⟨more, htext, -, hcloses⟩ := scanLiteral_eq_some_iff.1 hs
          rw [htext]
          simp [isLexeme, isQuoted, endsBefore, hc, hcloses]
        · cases h
      · split at h
        · next p hp =>
          cases h
          obtain ⟨hmem, ⟨rest, happ⟩, hlongest⟩ := find_punctuator_iff.1 hp
          rw [← happ, List.drop_left]
          rw [← happ] at hlongest
          refine ⟨by simpa [isLexeme] using hmem, endsBefore_punctuator_iff.2 ⟨?_, hlongest⟩⟩
          -- A point that a digit follows has been scanned as a number before.
          rintro ⟨rfl, hpoint⟩
          obtain ⟨rfl, rfl⟩ := List.cons.inj happ
          exact hdigit (by simp [hpoint])
        · cases h

/-- A lexeme that ends where a text begins is scanned in front of it. -/
theorem scan_of_isLexeme {k : Kind} {c : Char} {more rest : List Char}
    (h : isLexeme k (c :: more) = true) (hends : endsBefore k (c :: more) rest = true) :
    scan c (more ++ rest) = .ok ⟨k, c :: more, rest⟩ := by
  cases k with
  | identifier =>
      simp only [isLexeme, isIdentifier, Bool.and_eq_true, List.all_eq_true] at h
      have hrest : rest.takeWhile isNameChar = [] ∧ rest.dropWhile isNameChar = rest := by
        cases rest with
        | nil => exact ⟨rfl, rfl⟩
        | cons d rest =>
            have hd : isNameChar d = false := by simpa [endsBefore] using hends
            simp [hd]
      rw [scan, if_pos h.1, scanName_eq, List.takeWhile_append_of_pos h.2,
        List.dropWhile_append_of_pos h.2, hrest.1, hrest.2]
      simp
  | number =>
      simp only [isLexeme, isNumber, Bool.and_eq_true] at h
      rw [endsBefore, List.getLastD_cons, Bool.not_eq_true'] at hends
      have hname : isNameStart c = false := by
        rcases Bool.or_eq_true_iff.1 h.1 with hc | hc
        · exact isNameStart_eq_false_of_isDigit hc
        · rw [Bool.and_eq_true, beq_iff_eq] at hc
          rw [hc.1]
          decide
      have hstart : (c.isDigit || (c == '.' && startsWithDigit (more ++ rest))) = true := by
        rw [Bool.or_eq_true, Bool.and_eq_true] at h ⊢
        refine h.1.imp id fun hpoint => ⟨hpoint.1, ?_⟩
        cases more with
        | nil => cases hpoint.2
        | cons d more => exact hpoint.2
      rw [scan, if_neg (by simp [hname]), if_pos hstart, scanNumber_eq h.2 hends]
      rfl
  | literal =>
      simp only [isLexeme, isQuoted, Bool.and_eq_true] at h
      have hliteral : scanLiteral c false [c] (more ++ rest) = some (c :: more, rest) :=
        scanLiteral_eq_some_iff.2 ⟨more, rfl, rfl, h.2⟩
      have hother : isNameStart c = false ∧ c.isDigit = false ∧ (c == '.') = false := by
        rcases Bool.or_eq_true_iff.1 h.1 with hc | hc
        · rw [beq_iff_eq.1 hc]
          decide
        · rw [beq_iff_eq.1 hc]
          decide
      rw [scan, if_neg (by simp [hother]), if_neg (by simp [hother]), if_pos h.1, hliteral]
  | punctuator =>
      rw [isLexeme, List.contains_iff_mem] at h
      rw [endsBefore_punctuator_iff] at hends
      obtain ⟨hname, hdigit, hquote, -⟩ := head_punctuator h
      have hpoint : (c == '.' && startsWithDigit (more ++ rest)) = false := by
        rw [Bool.and_eq_false_iff, beq_eq_false_iff_ne]
        refine or_iff_not_imp_left.2 fun hc => ?_
        obtain rfl := not_not.1 hc
        exact startsWithDigit_eq_false h fun hrest heq => hends.1 ⟨heq, hrest⟩
      have hfind : punctuators.find? (·.isPrefixOf (c :: (more ++ rest))) = some (c :: more) := by
        exact find_punctuator_iff.2 ⟨h, ⟨rest, rfl⟩, hends.2⟩
      rw [scan, if_neg (by simp [hname]), if_neg (by simp [hdigit, hpoint]),
        if_neg (by simp [hquote]), hfind]
      simp

/-- **The lexeme at the start of a text** is the one that ends where the rest of the text
begins. -/
theorem scan_eq_ok_iff {c : Char} {cs : List Char} {l : Lexeme} :
    scan c cs = .ok l ↔ l.text ++ l.rest = c :: cs ∧ isLexeme l.kind l.text = true ∧
      endsBefore l.kind l.text l.rest = true := by
  constructor
  · intro h
    exact ⟨append_of_scan h, isLexeme_of_scan h⟩
  · rintro ⟨happ, hlexeme, hends⟩
    obtain ⟨k, text, rest⟩ := l
    cases text with
    | nil => exact absurd rfl (ne_nil_of_isLexeme hlexeme)
    | cons d more =>
        simp only [List.cons_append, List.cons.injEq] at happ
        obtain ⟨rfl, rfl⟩ := happ
        exact scan_of_isLexeme hlexeme hends

/-! ### Where lexemes end -/

/-- A lexeme starts with no blank. -/
theorem isBlank_eq_false_of_isLexeme {k : Kind} {c : Char} {cs : List Char}
    (h : isLexeme k (c :: cs) = true) : isBlank c = false := by
  cases k with
  | identifier =>
      simp only [isLexeme, isIdentifier, Bool.and_eq_true] at h
      exact isBlank_eq_false_of_isNameChar (isNameChar_of_isNameStart h.1)
  | number =>
      simp only [isLexeme, isNumber, Bool.and_eq_true] at h
      rcases Bool.or_eq_true_iff.1 h.1 with hc | hc
      · exact isBlank_eq_false_of_isNameChar (by simp [isNameChar, Char.isAlphanum, hc])
      · rw [Bool.and_eq_true, beq_iff_eq] at hc
        rw [hc.1]
        decide
  | literal =>
      simp only [isLexeme, isQuoted, Bool.and_eq_true] at h
      rcases Bool.or_eq_true_iff.1 h.1 with hc | hc
      · rw [beq_iff_eq.1 hc]
        decide
      · rw [beq_iff_eq.1 hc]
        decide
  | punctuator =>
      rw [isLexeme, List.contains_iff_mem] at h
      exact (head_punctuator h).2.2.2

/-- At the end of a text every lexeme ends. -/
theorem endsBefore_nil (k : Kind) (cs : List Char) : endsBefore k cs [] = true := by
  cases k with
  | identifier => rfl
  | number => rfl
  | literal => rfl
  | punctuator =>
      refine endsBefore_punctuator_iff.2 ⟨by simp [startsWithDigit], ?_⟩
      intro p _ hlength hprefix
      rw [List.append_nil] at hprefix
      exact absurd hprefix.length_le (Nat.not_le.2 hlength)

/-- A text is a lexeme of one kind. -/
theorem kind_eq_of_isLexeme {k k' : Kind} {cs : List Char} (h : isLexeme k cs = true)
    (h' : isLexeme k' cs = true) : k = k' := by
  obtain ⟨c, more, rfl⟩ := List.exists_cons_of_ne_nil (ne_nil_of_isLexeme h)
  have hscan := scan_of_isLexeme h (endsBefore_nil k _)
  rw [scan_of_isLexeme h' (endsBefore_nil k' _)] at hscan
  cases hscan
  rfl

/-- What is the beginning of a text up to a character that it does not hold. -/
theorem prefix_of_notMem {p cs more : List Char} {b : Char} (hb : b ∉ p)
    (h : p <+: cs ++ b :: more) : p <+: cs := by
  obtain ⟨t, ht⟩ := h
  rcases List.append_eq_append_iff.1 ht with ⟨as, rfl, -⟩ | ⟨bs, rfl, hbs⟩
  · exact List.prefix_append p as
  · cases bs with
    | nil => simp
    | cons d bs =>
        obtain ⟨rfl, -⟩ := List.cons.inj hbs
        exact absurd (by simp) hb

/-- A character that goes on with no number, and is in no punctuator that is longer than a lexeme,
ends the lexeme. -/
theorem endsBefore_append_cons {k : Kind} {cs rest : List Char} (h : endsBefore k cs rest = true)
    {b : Char} (hnumber : ∀ previous, isNumberChar previous b = false)
    (hmark : ∀ p ∈ punctuators, cs.length < p.length → b ∉ p) (more : List Char) :
    endsBefore k cs (rest ++ b :: more) = true := by
  have hchars := hnumber ' '
  simp only [isNumberChar, Bool.or_eq_false_iff] at hchars
  have hname : isNameChar b = false := by simp [isNameChar, hchars.1.1]
  cases k with
  | identifier =>
      cases rest with
      | nil => simp [endsBefore, hname]
      | cons c rest => exact h
  | number =>
      cases rest with
      | nil => simp [endsBefore, hnumber]
      | cons c rest => exact h
  | literal => rfl
  | punctuator =>
      rw [endsBefore_punctuator_iff] at h ⊢
      refine ⟨?_, fun p hp hlength hprefix => h.2 p hp hlength ?_⟩
      · cases rest with
        | nil =>
            have hdigit : b.isDigit = false := (Bool.or_eq_false_iff.1 hchars.1.1.1).2
            simp [startsWithDigit, hdigit]
        | cons c rest => exact h.1
      · rw [← List.append_assoc] at hprefix
        exact prefix_of_notMem (hmark p hp hlength) hprefix

/-- A blank goes on with no number and is in no punctuator. -/
theorem number_and_punctuators_of_isBlank {b : Char} (hb : isBlank b = true) :
    (∀ previous, isNumberChar previous b = false) ∧ ∀ p ∈ punctuators, b ∉ p := by
  have hchar : ∀ c : Char, isBlank c = false → b ≠ c := by
    rintro c hc rfl
    rw [hb] at hc
    cases hc
  have halphanum : b.isAlphanum = false := by
    rw [Bool.eq_false_iff]
    intro halphanum
    exact hchar b (isBlank_eq_false_of_isNameChar (by simp [isNameChar, halphanum])) rfl
  have hclear : ∀ p ∈ punctuators, p.all (fun c => !isBlank c) = true := by decide
  refine ⟨fun previous => ?_, fun p hp hmem => ?_⟩
  · simp [isNumberChar, halphanum, hchar '_' rfl, hchar '.' rfl, hchar '+' rfl, hchar '-' rfl]
  · have hb' := List.all_eq_true.1 (hclear p hp) b hmem
    rw [hb] at hb'
    cases hb'

/-- A blank neither goes on with a lexeme nor begins a longer one. -/
theorem endsBefore_append_blank {k : Kind} {cs rest : List Char} (h : endsBefore k cs rest = true)
    {b : Char} (hb : isBlank b = true) (more : List Char) :
    endsBefore k cs (rest ++ b :: more) = true := by
  obtain ⟨hnumber, hmark⟩ := number_and_punctuators_of_isBlank hb
  exact endsBefore_append_cons h hnumber (fun p hp _ => hmark p hp) more

/-- A lexeme ends where a text begins if it ends where a longer text begins. -/
theorem endsBefore_of_append {k : Kind} {cs rest more : List Char}
    (h : endsBefore k cs (rest ++ more) = true) : endsBefore k cs rest = true := by
  cases rest with
  | nil => exact endsBefore_nil k cs
  | cons c rest =>
      cases k with
      | punctuator =>
          rw [endsBefore_punctuator_iff] at h ⊢
          refine ⟨h.1, fun p hp hlength hbegins => h.2 p hp hlength (hbegins.trans ?_)⟩
          exact ⟨more, by simp⟩
      | _ => exact h

end Lexeme

namespace Token

open Lexeme (isLexeme endsBefore)

/-! ### Reading a text -/

/-- The text `cs` is read as the tokens `ts`, where `spaced` says whether a blank stands right
before the text. -/
inductive Reads : Bool → List Char → List Token → Prop
  | nil (spaced : Bool) : Reads spaced [] []
  | blank {spaced : Bool} {c : Char} {cs : List Char} {ts : List Token} (hc : isBlank c = true)
      (h : Reads true cs ts) : Reads spaced (c :: cs) ts
  | lexeme {spaced : Bool} {k : Kind} {text rest : List Char} {ts : List Token}
      (hlexeme : isLexeme k text = true) (hends : endsBefore k text rest = true)
      (h : Reads false rest ts) :
      Reads spaced (text ++ rest) (⟨k, String.ofList text, spaced⟩ :: ts)

/-- A text that starts with no blank is read as its first lexeme and what follows it. -/
theorem Reads.exists_scan {spaced : Bool} {c : Char} {cs : List Char} {ts : List Token}
    (h : Reads spaced (c :: cs) ts) (hc : isBlank c = false) :
    ∃ l us, Lexeme.scan c cs = .ok l ∧ ts = ⟨l.kind, String.ofList l.text, spaced⟩ :: us ∧
      Reads false l.rest us := by
  generalize hcs : c :: cs = all at h
  cases h with
  | nil => cases hcs
  | blank hblank _ =>
      cases hcs
      rw [hc] at hblank
      cases hblank
  | @lexeme _ k text rest ts hlexeme hends h =>
      exact ⟨⟨k, text, rest⟩, ts, Lexeme.scan_eq_ok_iff.2 ⟨hcs.symm, hlexeme, hends⟩, rfl, h⟩

/-- A token that is read at the start of a text ends where the rest of the text begins. -/
theorem Reads.of_lexeme {spaced : Bool} {k : Kind} {text rest : List Char} {t : Token}
    {ts : List Token} (h : Reads spaced (text ++ rest) (t :: ts)) (hlexeme : isLexeme k text = true)
    (htext : t.text.toList = text) : endsBefore t.kind text rest = true ∧ Reads false rest ts := by
  obtain ⟨c, more, rfl⟩ := List.exists_cons_of_ne_nil (Lexeme.ne_nil_of_isLexeme hlexeme)
  obtain ⟨l, us, hscan, heq, hrest⟩ := h.exists_scan (Lexeme.isBlank_eq_false_of_isLexeme hlexeme)
  obtain ⟨rfl, rfl⟩ := List.cons.inj heq
  obtain ⟨happ, -, hends⟩ := Lexeme.scan_eq_ok_iff.1 hscan
  rw [String.toList_ofList] at htext
  rw [htext] at happ hends
  obtain rfl := List.append_cancel_left happ
  exact ⟨hends, hrest⟩

theorem Reads.eq_nil {spaced : Bool} {ts : List Token} (h : Reads spaced [] ts) : ts = [] := by
  generalize hcs : [] = all at h
  cases h with
  | nil => rfl
  | blank => cases hcs
  | lexeme hlexeme =>
      exact absurd (List.append_eq_nil_iff.1 hcs.symm).1 (Lexeme.ne_nil_of_isLexeme hlexeme)

/-- Nothing is read of a blank. -/
theorem Reads.of_blank {spaced : Bool} {c : Char} {cs : List Char} {ts : List Token}
    (h : Reads spaced (c :: cs) ts) (hc : isBlank c = true) : Reads true cs ts := by
  generalize hcs : c :: cs = all at h
  cases h with
  | nil => cases hcs
  | blank _ h =>
      cases hcs
      exact h
  | @lexeme _ k text rest ts hlexeme _ _ =>
      cases text with
      | nil => exact absurd rfl (Lexeme.ne_nil_of_isLexeme hlexeme)
      | cons d text =>
          obtain ⟨rfl, -⟩ := List.cons.inj hcs
          rw [Lexeme.isBlank_eq_false_of_isLexeme hlexeme] at hc
          cases hc

/-- The lexer follows the grammar from any place of a text on. -/
theorem lexFrom_eq_ok_iff (offset : Nat) (spaced : Bool) (done : List Token) (cs : List Char) :
    ∀ ts, lexFrom offset spaced done cs = .ok ts ↔
      ∃ us, Reads spaced cs us ∧ ts = done.reverse ++ us := by
  fun_induction lexFrom offset spaced done cs with
  | case1 offset spaced done =>
      intro ts
      constructor
      · intro h
        cases h
        exact ⟨[], .nil spaced, by simp⟩
      · rintro ⟨us, h, rfl⟩
        rw [h.eq_nil, List.append_nil]
  | case2 offset spaced done c cs hc ih =>
      intro ts
      rw [ih]
      constructor
      · rintro ⟨us, h, hts⟩
        exact ⟨us, .blank hc h, hts⟩
      · rintro ⟨us, h, hts⟩
        exact ⟨us, h.of_blank hc, hts⟩
  | case3 offset spaced done c cs hc h =>
      intro ts
      constructor
      · intro herror
        cases herror
      · rintro ⟨us, hreads, -⟩
        obtain ⟨l, -, hscan, -⟩ := hreads.exists_scan (Bool.eq_false_iff.2 hc)
        rw [h] at hscan
        cases hscan
  | case4 offset spaced done c cs hc d h =>
      intro ts
      constructor
      · intro herror
        cases herror
      · rintro ⟨us, hreads, -⟩
        obtain ⟨l, -, hscan, -⟩ := hreads.exists_scan (Bool.eq_false_iff.2 hc)
        rw [h] at hscan
        cases hscan
  | case5 offset spaced done c cs hc l h _ text ih =>
      intro ts
      rw [ih]
      constructor
      · rintro ⟨us, hreads, rfl⟩
        obtain ⟨happ, hlexeme, hends⟩ := Lexeme.scan_eq_ok_iff.1 h
        refine ⟨⟨l.kind, text, spaced⟩ :: us, ?_, by simp⟩
        rw [← happ]
        exact .lexeme hlexeme hends hreads
      · rintro ⟨us, hreads, rfl⟩
        obtain ⟨l', vs, hscan, rfl, hrest⟩ := hreads.exists_scan (Bool.eq_false_iff.2 hc)
        rw [h] at hscan
        cases hscan
        exact ⟨vs, hrest, by simp [text]⟩

theorem lexChars_eq_ok_iff {cs : List Char} {ts : List Token} :
    lexChars cs = .ok ts ↔ Reads false cs ts := by
  rw [lexChars, lexFrom_eq_ok_iff]
  constructor
  · rintro ⟨us, h, rfl⟩
    exact h
  · intro h
    exact ⟨ts, h, rfl⟩

/-- **The lexer follows the grammar**: it succeeds on the texts that can be read, with the tokens
that they are read as. -/
theorem lex_eq_ok_iff {text : String} {ts : List Token} :
    lex text = .ok ts ↔ Reads false text.toList ts :=
  lexChars_eq_ok_iff

/-! ### Tokens that are read -/

namespace Reads

variable {spaced : Bool} {cs ds : List Char} {ts us : List Token}

/-- Tokens that are read are lexemes. -/
theorem isLexeme_of_mem (h : Reads spaced cs ts) :
    ∀ t ∈ ts, isLexeme t.kind t.text.toList = true := by
  induction h with
  | nil => simp
  | blank _ _ ih => exact ih
  | @lexeme _ k text rest ts hlexeme _ _ ih =>
      rw [List.forall_mem_cons]
      exact ⟨by simpa using hlexeme, ih⟩

/-- **Texts with a blank between them are read one after the other.** -/
theorem append_blank (h : Reads spaced cs ts) {b : Char} (hb : isBlank b = true)
    (h' : Reads true ds us) : Reads spaced (cs ++ b :: ds) (ts ++ us) := by
  induction h with
  | nil => exact .blank hb h'
  | blank hc _ ih => exact .blank hc ih
  | lexeme hlexeme hends _ ih =>
      rw [List.append_assoc]
      exact .lexeme hlexeme (Lexeme.endsBefore_append_blank hends hb ds) ih

/-- A blank before a text is a space before its first token. -/
theorem respace (h : Reads spaced cs ts) : Reads true cs (Token.respace true ts) := by
  induction h with
  | nil => exact .nil true
  | blank hc _ ih => exact .blank hc ih
  | lexeme hlexeme hends h _ => exact .lexeme hlexeme hends h

end Reads

/-- A space between two texts only separates their tokens. -/
theorem lex_append_space {u v : String} {ts us : List Token} (hu : lex u = .ok ts)
    (hv : lex v = .ok us) : lex (u ++ " " ++ v) = .ok (ts ++ respace true us) := by
  rw [lex_eq_ok_iff] at hu hv ⊢
  have hspace : (u ++ " " ++ v).toList = u.toList ++ ' ' :: v.toList := by simp
  rw [hspace]
  exact hu.append_blank (by decide) hv.respace

end Token

end VariadicMacros
