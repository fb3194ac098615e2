/-
**Where the lexer stops.**

A text that cannot be read as tokens has a place where no lexeme begins, and what stands before
that place is read on its own.  At the place stands one of two things: a character that begins no
lexeme whatever follows it, or a quote whose literal is still open when its line, or the text, ends.
The lexer fails exactly at such a place, and the byte offset that it reports is the place.

Main definitions:

* `VariadicMacros.Lexeme.LiteralBody` — the characters between the quotes of a literal;
* `VariadicMacros.Lexeme.LeavesOpen` — what comes after them when no quote closes the literal;
* `VariadicMacros.Token.StopsAt` — why no lexeme begins at a place.

Main results:

* `VariadicMacros.Lexeme.isQuoted_iff` — a literal is a body between two quotes;
* `VariadicMacros.Lexeme.scan_eq_unclosed_iff`, `VariadicMacros.Lexeme.scan_eq_unexpected_iff` —
  when no lexeme starts at a place;
* `VariadicMacros.Token.lex_eq_error_iff` — **the lexer fails at the first place where no lexeme
  begins**.
-/

import VariadicMacros.Proofs.LexicalGrammar

set_option autoImplicit false

namespace VariadicMacros

open Text

namespace Lexeme

/-! ### Between quotes -/

/-- The characters between the quotes of a literal: none of them is the quote, a backslash or a line
feed, unless a backslash before it takes it along. -/
inductive LiteralBody (quote : Char) : List Char → Prop
  | nil : LiteralBody quote []
  | plain {c : Char} {cs : List Char} (hc : c ≠ '\\' ∧ c ≠ quote ∧ c ≠ '\n')
      (h : LiteralBody quote cs) : LiteralBody quote (c :: cs)
  | escaped (c : Char) {cs : List Char} (h : LiteralBody quote cs) :
      LiteralBody quote ('\\' :: c :: cs)

/-- The text ends, perhaps with a backslash, or the line does. -/
def LeavesOpen (rest : List Char) : Prop :=
  rest = [] ∨ rest = ['\\'] ∨ rest.head? = some '\n'

/-- Every text is the body of a literal up to a quote that closes it, or to where the literal is
left open. -/
theorem exists_literalBody (quote : Char) (cs : List Char) :
    ∃ body rest, body ++ rest = cs ∧ LiteralBody quote body ∧
      (LeavesOpen rest ∨ rest.head? = some quote) := by
  -- A backslash takes two characters at once.
  induction hn : cs.length using Nat.strongRecOn generalizing cs with
  | _ n ih =>
      cases cs with
      | nil => exact ⟨[], [], rfl, .nil, .inl (.inl rfl)⟩
      | cons c cs =>
          rw [List.length_cons] at hn
          by_cases hescape : c = '\\'
          · cases cs with
            | nil => exact ⟨[], [c], rfl, .nil, .inl (.inr (.inl (by rw [hescape])))⟩
            | cons d cs =>
                rw [List.length_cons] at hn
                obtain ⟨body, rest, rfl, hbody, hrest⟩ := ih cs.length (by omega) cs rfl
                exact ⟨c :: d :: body, rest, rfl, hescape ▸ .escaped d hbody, hrest⟩
          · by_cases hquote : c = quote
            · exact ⟨[], c :: cs, rfl, .nil, .inr (by rw [hquote]; rfl)⟩
            · by_cases hline : c = '\n'
              · exact ⟨[], c :: cs, rfl, .nil, .inl (.inr (.inr (by rw [hline]; rfl)))⟩
              · obtain ⟨body, rest, rfl, hbody, hrest⟩ := ih cs.length (by omega) cs rfl
                exact ⟨c :: body, rest, rfl, .plain ⟨hescape, hquote, hline⟩ hbody, hrest⟩

namespace LiteralBody

variable {quote : Char} {body : List Char}

/-- Characters none of which ends, breaks or escapes anything. -/
theorem of_forall (h : ∀ c ∈ body, c ≠ '\\' ∧ c ≠ quote ∧ c ≠ '\n') : LiteralBody quote body := by
  induction body with
  | nil => exact .nil
  | cons c body ih =>
      rw [List.forall_mem_cons] at h
      exact .plain h.1 (ih h.2)

theorem append {cs : List Char} (h : LiteralBody quote body) (h' : LiteralBody quote cs) :
    LiteralBody quote (body ++ cs) := by
  induction h with
  | nil => exact h'
  | plain hc _ ih => exact .plain hc ih
  | escaped c _ ih => exact .escaped c ih

/-- The body of a literal does not close it. -/
theorem closesLiteral_append (h : LiteralBody quote body) (rest : List Char) :
    closesLiteral quote false (body ++ rest) = closesLiteral quote false rest := by
  induction h with
  | nil => rfl
  | plain hc _ ih =>
      rw [List.cons_append, closesLiteral, if_neg Bool.false_ne_true, if_neg hc.1, if_neg hc.2.1,
        if_neg hc.2.2, ih]
  | escaped c _ ih =>
      rw [List.cons_append, List.cons_append, closesLiteral, if_neg Bool.false_ne_true,
        if_pos rfl, closesLiteral, if_pos rfl, ih]

/-- A scan for the closing quote takes the body of the literal along. -/
theorem scanLiteral_append (h : LiteralBody quote body) (taken rest : List Char) :
    scanLiteral quote false taken (body ++ rest) =
      scanLiteral quote false (body.reverse ++ taken) rest := by
  induction h generalizing taken with
  | nil => rfl
  | plain hc _ ih =>
      rw [List.cons_append, scanLiteral, if_neg Bool.false_ne_true, if_neg hc.1, if_neg hc.2.1,
        if_neg hc.2.2, ih]
      simp
  | escaped c _ ih =>
      rw [List.cons_append, List.cons_append, scanLiteral, if_neg Bool.false_ne_true,
        if_pos rfl, scanLiteral, if_pos rfl, ih]
      simp

end LiteralBody

section Quotes

variable {quote : Char} (hquote : quote = '"' ∨ quote = '\'')

include hquote

theorem quote_ne : quote ≠ '\\' ∧ quote ≠ '\n' := by
  rcases hquote with rfl | rfl <;> decide

/-- A literal is closed by the first quote after its body. -/
theorem closesLiteral_iff {cs : List Char} :
    closesLiteral quote false cs = true ↔
      ∃ body, LiteralBody quote body ∧ cs = body ++ [quote] := by
  have hne := quote_ne hquote
  constructor
  · intro h
    obtain ⟨body, rest, rfl, hbody, hrest⟩ := exists_literalBody quote cs
    rw [hbody.closesLiteral_append] at h
    rcases hrest with (rfl | rfl | hline) | hclose
    · cases h
    · cases h
    · obtain ⟨more, rfl⟩ := List.head?_eq_some_iff.1 hline
      simp [closesLiteral, hne.2.symm] at h
    · obtain ⟨more, rfl⟩ := List.head?_eq_some_iff.1 hclose
      rw [closesLiteral, if_neg Bool.false_ne_true, if_neg hne.1, if_pos rfl,
        List.isEmpty_iff] at h
      exact ⟨body, hbody, by rw [h]⟩
  · rintro ⟨body, hbody, rfl⟩
    rw [hbody.closesLiteral_append]
    simp [closesLiteral, hne.1]

/-- No quote is found exactly where the literal is left open. -/
theorem scanLiteral_eq_none_iff {taken cs : List Char} :
    scanLiteral quote false taken cs = none ↔
      ∃ body rest, body ++ rest = cs ∧ LiteralBody quote body ∧ LeavesOpen rest := by
  have hne := quote_ne hquote
  constructor
  · intro h
    obtain ⟨body, rest, rfl, hbody, hrest | hclose⟩ := exists_literalBody quote cs
    · exact ⟨body, rest, rfl, hbody, hrest⟩
    · obtain ⟨more, rfl⟩ := List.head?_eq_some_iff.1 hclose
      rw [hbody.scanLiteral_append, scanLiteral, if_neg Bool.false_ne_true, if_neg hne.1,
        if_pos rfl] at h
      cases h
  · rintro ⟨body, rest, rfl, hbody, rfl | rfl | hline⟩
    · rw [hbody.scanLiteral_append, scanLiteral]
    · rw [hbody.scanLiteral_append]
      rfl
    · obtain ⟨more, rfl⟩ := List.head?_eq_some_iff.1 hline
      rw [hbody.scanLiteral_append, scanLiteral, if_neg Bool.false_ne_true, if_neg (by decide),
        if_neg hne.2.symm, if_pos rfl]

end Quotes

/-- **A literal** is a body between two quotes of one kind. -/
theorem isQuoted_iff {cs : List Char} :
    isQuoted cs = true ↔ ∃ quote body, (quote = '"' ∨ quote = '\'') ∧ LiteralBody quote body ∧
      cs = quote :: (body ++ [quote]) := by
  cases cs with
  | nil => simp [isQuoted]
  | cons c cs =>
      rw [isQuoted, Bool.and_eq_true, Bool.or_eq_true, beq_iff_eq, beq_iff_eq]
      constructor
      · rintro ⟨hc, hcloses⟩
        obtain ⟨body, hbody, rfl⟩ := (closesLiteral_iff hc).1 hcloses
        exact ⟨c, body, hc, hbody, rfl⟩
      · rintro ⟨quote, body, hquote, hbody, heq⟩
        obtain ⟨rfl, rfl⟩ := List.cons.inj heq
        exact ⟨hquote, (closesLiteral_iff hquote).2 ⟨body, hbody, rfl⟩⟩

/-! ### Where no lexeme starts -/

/-- Every character of a punctuator is one itself. -/
theorem singleton_mem_punctuators {p : List Char} (hp : p ∈ punctuators) {c : Char} (hc : c ∈ p) :
    [c] ∈ punctuators := by
  have hall : punctuators.all (fun p => p.all fun c => punctuators.contains [c]) = true := by decide
  exact List.contains_iff_mem.1 (List.all_eq_true.1 (List.all_eq_true.1 hall p hp) c hc)

/-- A character that starts no name, no number and no literal, and that is no punctuator, begins no
lexeme. -/
theorem isLexeme_cons_eq_false {c : Char} (hname : isNameStart c = false)
    (hdigit : c.isDigit = false) (hquote : (c == '"' || c == '\'') = false)
    (hmark : [c] ∉ punctuators) (k : Kind) (more : List Char) : isLexeme k (c :: more) = false := by
  have hpoint : c ≠ '.' := by
    rintro rfl
    exact hmark (by decide)
  cases k with
  | identifier => simp [isLexeme, isIdentifier, hname]
  | number => simp [isLexeme, isNumber, hdigit, hpoint]
  | literal => simp [isLexeme, isQuoted, hquote]
  | punctuator =>
      rw [isLexeme, Bool.eq_false_iff]
      intro hmem
      rw [List.contains_iff_mem] at hmem
      exact hmark (singleton_mem_punctuators hmem List.mem_cons_self)

/-- The two ways in which the scan at a character fails. -/
theorem scan_error_cases {c : Char} {cs : List Char} {fault : LexemeFault}
    (h : scan c cs = .error fault) :
    (fault = .unclosed ∧ (c = '"' ∨ c = '\'') ∧ scanLiteral c false [c] cs = none) ∨
      (fault = .unexpected c ∧ ∀ k more, isLexeme k (c :: more) = false) := by
  unfold scan at h
  split at h
  · cases h
  · next hname =>
    split at h
    · cases h
    · next hdigit =>
      rw [Bool.or_eq_true, not_or] at hdigit
      split at h
      · next hquote =>
        rw [Bool.or_eq_true, beq_iff_eq, beq_iff_eq] at hquote
        split at h
        · cases h
        · next hscan =>
          cases h
          exact .inl ⟨rfl, hquote, hscan⟩
      · next hquote =>
        split at h
        · cases h
        · next hfind =>
          cases h
          -- The character alone would have been found.
          have hmark : [c] ∉ punctuators := fun hmem => by
            have hbegins := List.find?_eq_none.1 hfind [c] hmem
            simp at hbegins
          rw [Bool.not_eq_true] at hname hquote
          exact .inr ⟨rfl, isLexeme_cons_eq_false hname (Bool.eq_false_iff.2 hdigit.1) hquote hmark⟩

/-- A literal is the one thing that can be left open. -/
theorem scan_eq_unclosed_iff {c : Char} {cs : List Char} :
    scan c cs = .error .unclosed ↔
      (c = '"' ∨ c = '\'') ∧ scanLiteral c false [c] cs = none := by
  constructor
  · intro h
    rcases scan_error_cases h with ⟨-, hopen⟩ | ⟨hfault, -⟩
    · exact hopen
    · cases hfault
  · rintro ⟨hc, hscan⟩
    have hother : isNameStart c = false ∧ c.isDigit = false ∧ (c == '.') = false ∧
        (c == '"' || c == '\'') = true := by
      rcases hc with rfl | rfl <;> decide
    rw [scan, if_neg (by simp [hother]), if_neg (by simp [hother]), if_pos hother.2.2.2, hscan]

/-- A character is unexpected when it begins no lexeme, whatever follows it. -/
theorem scan_eq_unexpected_iff {c d : Char} {cs : List Char} :
    scan c cs = .error (.unexpected d) ↔
      d = c ∧ ∀ k more, isLexeme k (c :: more) = false := by
  constructor
  · intro h
    rcases scan_error_cases h with ⟨hfault, -⟩ | ⟨hfault, hnone⟩
    · cases hfault
    · cases hfault
      exact ⟨rfl, hnone⟩
  · rintro ⟨rfl, hnone⟩
    cases hscan : scan d cs with
    | ok l =>
        obtain ⟨happ, hlexeme, -⟩ := scan_eq_ok_iff.1 hscan
        obtain ⟨e, more, htext⟩ := List.exists_cons_of_ne_nil (ne_nil_of_isLexeme hlexeme)
        rw [htext] at happ hlexeme
        obtain ⟨rfl, -⟩ := List.cons.inj happ
        rw [hnone] at hlexeme
        cases hlexeme
    | error fault =>
        rcases scan_error_cases hscan with ⟨-, hquote, -⟩ | ⟨rfl, -⟩
        · -- A quote begins the literal without any characters.
          have hempty : isLexeme .literal [d, d] = true := by
            rcases hquote with rfl | rfl <;> decide
          rw [hnone] at hempty
          cases hempty
        · rfl

end Lexeme

namespace Token

open Lexeme (isLexeme endsBefore LiteralBody LeavesOpen)

/-! ### One step of the lexer -/

section Steps

variable (offset : Nat) (spaced : Bool) (done : List Token)

theorem lexFrom_nil : lexFrom offset spaced done [] = .ok done.reverse := by
  rw [lexFrom]

theorem lexFrom_cons_of_isBlank {c : Char} (hc : isBlank c = true) (cs : List Char) :
    lexFrom offset spaced done (c :: cs) = lexFrom (offset + c.utf8Size) true done cs := by
  rw [lexFrom, if_pos hc]

/-- At a character that is not blank the lexer scans a lexeme. -/
theorem lexFrom_cons {c : Char} (hc : isBlank c = false) (cs : List Char) :
    lexFrom offset spaced done (c :: cs) =
      match Lexeme.scan c cs with
      | .error .unclosed => .error (.unterminated .literal offset)
      | .error (.unexpected d) => .error (.unexpectedCharacter d offset)
      | .ok l =>
        lexFrom (offset + (String.ofList l.text).utf8ByteSize) false
          (⟨l.kind, String.ofList l.text, spaced⟩ :: done) l.rest := by
  rw [lexFrom, if_neg (by simp [hc])]
  split
  · next hscan => rw [hscan]
  · next d hscan => rw [hscan]
  · next l hscan => simp only [hscan]

end Steps

/-! ### Why no token begins -/

/-- Why no lexeme begins at the start of a text, at the byte offset `offset`: a character that
begins none stands there, or a quote whose literal is left open. -/
inductive StopsAt (offset : Nat) : List Char → MacroError → Prop
  | unexpected {c : Char} {cs : List Char} (hblank : isBlank c = false)
      (h : ∀ k more, isLexeme k (c :: more) = false) :
      StopsAt offset (c :: cs) (.unexpectedCharacter c offset)
  | unterminated {quote : Char} {body rest : List Char} (hquote : quote = '"' ∨ quote = '\'')
      (hbody : LiteralBody quote body) (hrest : LeavesOpen rest) :
      StopsAt offset (quote :: (body ++ rest)) (.unterminated .literal offset)

namespace StopsAt

variable {offset : Nat} {cs : List Char} {e : MacroError}

/-- Where no lexeme begins the lexer fails. -/
theorem lexFrom_eq (h : StopsAt offset cs e) (spaced : Bool) (done : List Token) :
    lexFrom offset spaced done cs = .error e := by
  cases h with
  | @unexpected c cs hblank hnone =>
      have hscan : Lexeme.scan c cs = .error (.unexpected c) :=
        Lexeme.scan_eq_unexpected_iff.2 ⟨rfl, hnone⟩
      rw [lexFrom_cons offset spaced done hblank, hscan]
  | @unterminated quote body rest hquote hbody hrest =>
      have hnone : Lexeme.scanLiteral quote false [quote] (body ++ rest) = none :=
        (Lexeme.scanLiteral_eq_none_iff hquote).2 ⟨body, rest, rfl, hbody, hrest⟩
      have hscan := Lexeme.scan_eq_unclosed_iff.2 ⟨hquote, hnone⟩
      have hblank : isBlank quote = false := by
        rcases hquote with rfl | rfl <;> decide
      rw [lexFrom_cons offset spaced done hblank, hscan]

/-- Nothing stands before the start of a text. -/
theorem exists_reads (h : StopsAt offset cs e) (spaced : Bool) :
    ∃ before after ts, before ++ after = cs ∧ Reads spaced before ts ∧
      StopsAt (offset + (String.ofList before).utf8ByteSize) after e :=
  ⟨[], cs, [], rfl, .nil spaced, by simpa using h⟩

/-- The character at such a place goes on with no lexeme before it. -/
theorem exists_cons (h : StopsAt offset cs e) :
    ∃ b more, cs = b :: more ∧ (∀ previous, isNumberChar previous b = false) ∧
      ∀ p ∈ punctuators, b ∉ p := by
  cases h with
  | @unexpected c cs hblank hnone =>
      have hmark : [c] ∉ punctuators := fun hmem => by
        have hlexeme := hnone .punctuator []
        rw [isLexeme, List.contains_eq_mem, decide_eq_false_iff_not] at hlexeme
        exact hlexeme hmem
      have hword : isNameStart c = false ∧ c.isDigit = false := by
        have hidentifier := hnone .identifier []
        have hnumber := hnone .number []
        simp only [isLexeme, isIdentifier, Lexeme.isNumber, Lexeme.continuesNumber, List.all_nil,
          Bool.and_true, Bool.or_eq_false_iff] at hidentifier hnumber
        exact ⟨hidentifier, hnumber.1⟩
      have hne : ∀ d : Char, [d] ∈ punctuators → c ≠ d := by
        rintro d hd rfl
        exact hmark hd
      refine ⟨c, cs, rfl, fun previous => ?_, fun p hp hmem => ?_⟩
      · simp only [isNameStart, Bool.or_eq_false_iff] at hword
        simp [isNumberChar, Char.isAlphanum, hword, hne '.' (by decide), hne '+' (by decide),
          hne '-' (by decide)]
      · exact hmark (Lexeme.singleton_mem_punctuators hp hmem)
  | @unterminated quote body rest hquote _ _ =>
      refine ⟨quote, body ++ rest, rfl, fun previous => ?_, ?_⟩
      · rcases hquote with rfl | rfl <;> rfl
      · rcases hquote with rfl | rfl <;> decide

end StopsAt

/-! ### Lexing up to a place -/

/-- The lexer takes a lexeme that ends where the rest of a text begins. -/
theorem lexFrom_of_isLexeme {k : Kind} {text rest : List Char} (h : isLexeme k text = true)
    (hends : endsBefore k text rest = true) (offset : Nat) (spaced : Bool) (done : List Token) :
    lexFrom offset spaced done (text ++ rest) =
      lexFrom (offset + (String.ofList text).utf8ByteSize) false
        (⟨k, String.ofList text, spaced⟩ :: done) rest := by
  obtain ⟨c, more, rfl⟩ := List.exists_cons_of_ne_nil (Lexeme.ne_nil_of_isLexeme h)
  have hscan := Lexeme.scan_of_isLexeme h hends
  rw [List.cons_append, lexFrom_cons offset spaced done (Lexeme.isBlank_eq_false_of_isLexeme h),
    hscan]

/-- **The lexer gets to a character that goes on with no lexeme before it** if what stands before
the character is read. -/
theorem Reads.exists_lexFrom_append {spaced : Bool} {cs : List Char} {ts : List Token}
    (h : Reads spaced cs ts) {b : Char} (hnumber : ∀ previous, isNumberChar previous b = false)
    (hmark : ∀ p ∈ punctuators, 1 < p.length → b ∉ p) :
    ∃ spaced', ∀ offset done more, lexFrom offset spaced done (cs ++ b :: more) =
      lexFrom (offset + (String.ofList cs).utf8ByteSize) spaced' (ts.reverse ++ done)
        (b :: more) := by
  induction h with
  | nil spaced => exact ⟨spaced, fun offset done more => by simp⟩
  | @blank spaced c cs ts hc _ ih =>
      obtain ⟨spaced', ih⟩ := ih
      refine ⟨spaced', fun offset done more => ?_⟩
      rw [List.cons_append, lexFrom_cons_of_isBlank _ _ _ hc, ih, String.ofList_cons,
        String.utf8ByteSize_append, String.utf8ByteSize_singleton, Nat.add_assoc]
  | @lexeme spaced k text rest ts hlexeme hends _ ih =>
      obtain ⟨spaced', ih⟩ := ih
      refine ⟨spaced', fun offset done more => ?_⟩
      have hends' : endsBefore k text (rest ++ b :: more) = true := by
        refine Lexeme.endsBefore_append_cons hends hnumber (fun p hp hlength => ?_) more
        have hpos := List.length_pos_iff.2 (Lexeme.ne_nil_of_isLexeme hlexeme)
        exact hmark p hp (by omega)
      rw [List.append_assoc, lexFrom_of_isLexeme hlexeme hends', ih, String.ofList_append,
        String.utf8ByteSize_append, Nat.add_assoc, List.reverse_cons, List.append_assoc]
      rfl

/-- Where the lexer fails no lexeme begins, and what stands before is read. -/
theorem exists_of_lexFrom_eq_error {offset : Nat} {spaced : Bool} {done : List Token}
    {cs : List Char} {e : MacroError} (h : lexFrom offset spaced done cs = .error e) :
    ∃ before after ts, before ++ after = cs ∧ Reads spaced before ts ∧
      StopsAt (offset + (String.ofList before).utf8ByteSize) after e := by
  fun_induction lexFrom offset spaced done cs with
  | case1 => cases h
  | case2 offset spaced done c cs hc ih =>
      obtain ⟨before, after, ts, rfl, hreads, hstops⟩ := ih h
      refine ⟨c :: before, after, ts, rfl, .blank hc hreads, ?_⟩
      rwa [String.ofList_cons, String.utf8ByteSize_append, String.utf8ByteSize_singleton,
        ← Nat.add_assoc]
  | case3 offset spaced done c cs hc hscan =>
      cases h
      obtain ⟨hquote, hnone⟩ := Lexeme.scan_eq_unclosed_iff.1 hscan
      obtain ⟨body, rest, rfl, hbody, hrest⟩ := (Lexeme.scanLiteral_eq_none_iff hquote).1 hnone
      exact (StopsAt.unterminated hquote hbody hrest).exists_reads spaced
  | case4 offset spaced done c cs hc d hscan =>
      cases h
      obtain ⟨rfl, hnone⟩ := Lexeme.scan_eq_unexpected_iff.1 hscan
      exact (StopsAt.unexpected (Bool.eq_false_iff.2 hc) hnone).exists_reads spaced
  | case5 offset spaced done c cs hc l hscan _ text ih =>
      obtain ⟨happ, hlexeme, hends⟩ := Lexeme.scan_eq_ok_iff.1 hscan
      obtain ⟨before, after, ts, hrest, hreads, hstops⟩ := ih h
      rw [← hrest] at happ hends
      refine ⟨l.text ++ before, after, ⟨l.kind, text, spaced⟩ :: ts, ?_,
        .lexeme hlexeme (Lexeme.endsBefore_of_append hends) hreads, ?_⟩
      · rw [List.append_assoc, happ]
      · rwa [String.ofList_append, String.utf8ByteSize_append, ← Nat.add_assoc]

/-- **The lexer fails at the first place where no lexeme begins.**  What stands before the place is
read as tokens, and the byte offset that is reported is that of the place. -/
theorem lex_eq_error_iff {text : String} {e : MacroError} :
    lex text = .error e ↔ ∃ before after : String, text = before ++ after ∧
      (∃ ts, lex before = .ok ts) ∧ StopsAt before.utf8ByteSize after.toList e := by
  constructor
  · intro h
    obtain ⟨before, after, ts, happ, hreads, hstops⟩ := exists_of_lexFrom_eq_error h
    refine ⟨String.ofList before, String.ofList after, ?_, ⟨ts, ?_⟩, by simpa using hstops⟩
    · rw [← String.ofList_append, happ, String.ofList_toList]
    · rw [lex_eq_ok_iff, String.toList_ofList]
      exact hreads
  · rintro ⟨before, after, rfl, ⟨ts, hbefore⟩, hstops⟩
    rw [lex_eq_ok_iff] at hbefore
    obtain ⟨b, more, hafter, hnumber, hmark⟩ := hstops.exists_cons
    obtain ⟨spaced, hlex⟩ := hbefore.exists_lexFrom_append hnumber fun p hp _ => hmark p hp
    rw [lex, lexChars, String.toList_append, hafter, hlex, String.ofList_toList, ← hafter,
      Nat.zero_add]
    exact hstops.lexFrom_eq spaced _

end Token

end VariadicMacros
