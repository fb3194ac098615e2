/-
**Maximal munch.**

At every place of a text the lexer takes the longest lexeme that begins there, whatever its kind.
That a lexeme ends where the rest of the text begins, which is what the scanners look at, says the
same: a lexeme that does not end there can be made longer, and of two lexemes that both end only one
can be the one that is scanned.

So a text that is read as tokens is these tokens one after the other with gaps of blanks between
them, each token the longest lexeme at its place.  With what is known about the places where the
lexer stops this says of every text what comes of it.

Main definitions:

* `VariadicMacros.Lexeme.IsLongest` — a text is the longest lexeme at the start of another one;
* `VariadicMacros.Token.Placed`, `VariadicMacros.Token.laidOut` — a token with the gap before it,
  and the text of such tokens;
* `VariadicMacros.Token.IsLayout`, `VariadicMacros.Token.IsMunch` — the gaps are blanks, and every
  token is the longest lexeme at its place;
* `VariadicMacros.Token.StandsInLiteral` — a place of the text is in a literal among the tokens.

Main results:

* `VariadicMacros.Lexeme.isLongest_iff` — the longest lexeme is the one that ends;
* `VariadicMacros.Token.lex_eq_ok_iff_isMunch` — the tokens of a text are its longest lexemes;
* `VariadicMacros.Token.lex_eq_iff` — **what the lexer makes of a text**.
-/

import VariadicMacros.Proofs.LexicalErrors

set_option autoImplicit false

namespace VariadicMacros

open Text

namespace Lexeme

/-! ### The longest lexeme -/

/-- The text is a lexeme at the start of `cs`, and no lexeme of any kind there is longer. -/
structure IsLongest (k : Kind) (text cs : List Char) : Prop where
  isLexeme : isLexeme k text = true
  isPrefix : text <+: cs
  longest : ∀ (k' : Kind) (other : List Char), Lexeme.isLexeme k' other = true → other <+: cs →
    other.length ≤ text.length

theorem continuesNumber_concat {previous c : Char} {cs : List Char}
    (h : continuesNumber previous cs = true) (hc : isNumberChar (cs.getLastD previous) c = true) :
    continuesNumber previous (cs ++ [c]) = true := by
  induction cs generalizing previous with
  | nil => simpa [continuesNumber] using hc
  | cons d cs ih =>
      rw [continuesNumber, Bool.and_eq_true] at h
      rw [List.getLastD_cons] at hc
      rw [List.cons_append, continuesNumber, h.1, ih h.2 hc]
      rfl

/-- A lexeme that does not end where the rest of a text begins is not the longest one. -/
theorem exists_longer {k : Kind} {text rest : List Char} (h : isLexeme k text = true)
    (hends : endsBefore k text rest = false) :
    ∃ k' other, isLexeme k' other = true ∧ other <+: text ++ rest ∧
      text.length < other.length := by
  -- A name or a number goes on with the next character.
  have hnext : ∀ {c : Char} {after : List Char}, rest = c :: after →
      isLexeme k (text ++ [c]) = true → ∃ k' other, isLexeme k' other = true ∧
        other <+: text ++ rest ∧ text.length < other.length := by
    rintro c after rfl hlexeme
    exact ⟨k, text ++ [c], hlexeme, ⟨after, by simp⟩, by simp⟩
  obtain ⟨d, more, rfl⟩ := List.exists_cons_of_ne_nil (ne_nil_of_isLexeme h)
  cases k with
  | identifier =>
      cases rest with
      | nil => cases hends
      | cons c rest =>
          have hc : isNameChar c = true := by simpa [endsBefore] using hends
          refine hnext rfl ?_
          simp only [isLexeme, isIdentifier, Bool.and_eq_true, List.all_eq_true] at h
          simp only [isLexeme, List.cons_append, isIdentifier, h.1, List.all_append,
            List.all_eq_true.2 h.2, List.all_cons, hc, List.all_nil, Bool.and_self]
  | number =>
      cases rest with
      | nil => cases hends
      | cons c rest =>
          have hc : isNumberChar (more.getLastD d) c = true := by
            rwa [endsBefore, Bool.not_eq_false', List.head?_cons, Option.any_some,
              List.getLastD_cons] at hends
          refine hnext rfl ?_
          simp only [isLexeme, isNumber, Bool.and_eq_true, Bool.or_eq_true] at h
          simp only [isLexeme, List.cons_append, isNumber, Bool.and_eq_true, Bool.or_eq_true]
          refine ⟨h.1.imp_right fun hpoint => ⟨hpoint.1, ?_⟩, continuesNumber_concat h.2 hc⟩
          cases more with
          | nil => cases hpoint.2
          | cons e more => exact hpoint.2
  | literal => cases hends
  | punctuator =>
      rw [Bool.eq_false_iff, ne_eq, endsBefore_punctuator_iff, not_and_or, not_not] at hends
      rcases hends with ⟨hpoint, hdigit⟩ | hlonger
      · obtain ⟨rfl, rfl⟩ := List.cons.inj hpoint
        cases rest with
        | nil => cases hdigit
        | cons c rest =>
            have hc : c.isDigit = true := hdigit
            exact ⟨.number, ['.', c], by simp [isLexeme, isNumber, startsWithDigit, continuesNumber,
              isNumberChar, Char.isAlphanum, hc], ⟨rest, rfl⟩, by simp⟩
      · simp only [not_forall, not_not] at hlonger
        obtain ⟨p, hp, hlength, hbegins⟩ := hlonger
        exact ⟨.punctuator, p, by simpa [isLexeme] using hp, hbegins, hlength⟩

/-- Of the lexemes at the start of a text one is the longest. -/
theorem exists_isLongest {k : Kind} {other cs : List Char} (h : isLexeme k other = true)
    (hbegins : other <+: cs) :
    ∃ k' text, IsLongest k' text cs ∧ other.length ≤ text.length := by
  induction hn : cs.length - other.length using Nat.strongRecOn generalizing k other with
  | _ n ih =>
      by_cases hlongest : ∀ k' longer, isLexeme k' longer = true → longer <+: cs →
          longer.length ≤ other.length
      · exact ⟨k, other, ⟨h, hbegins, hlongest⟩, Nat.le_refl _⟩
      · simp only [not_forall, Nat.not_le] at hlongest
        obtain ⟨k', longer, hlonger, hbegins', hlength⟩ := hlongest
        have hle := hbegins'.length_le
        obtain ⟨k'', text, htext, hmore⟩ := ih _ (by omega) hlonger hbegins' rfl
        exact ⟨k'', text, htext, by omega⟩

/-- **The longest lexeme** at the start of a text is the one that ends where the rest begins. -/
theorem isLongest_iff {k : Kind} {text rest : List Char} :
    IsLongest k text (text ++ rest) ↔
      isLexeme k text = true ∧ endsBefore k text rest = true := by
  have hends : ∀ {k : Kind} {text rest : List Char}, IsLongest k text (text ++ rest) →
      endsBefore k text rest = true := by
    intro k text rest h
    rw [← Bool.not_eq_false]
    intro hfalse
    obtain ⟨k', other, hother, hbegins, hlength⟩ := exists_longer h.isLexeme hfalse
    exact absurd (h.longest k' other hother hbegins) (Nat.not_le.2 hlength)
  constructor
  · exact fun h => ⟨h.isLexeme, hends h⟩
  · rintro ⟨hlexeme, hend⟩
    refine ⟨hlexeme, List.prefix_append _ _, fun k' other hother hbegins => ?_⟩
    -- The longest lexeme ends as well, so that both are what is scanned.
    obtain ⟨k'', longest, hlongest, hle⟩ := exists_isLongest hother hbegins
    obtain ⟨rest', happ⟩ := hlongest.isPrefix
    obtain ⟨c, more, rfl⟩ := List.exists_cons_of_ne_nil (ne_nil_of_isLexeme hlexeme)
    have hscan : scan c (more ++ rest) = .ok ⟨k'', longest, rest'⟩ :=
      scan_eq_ok_iff.2 ⟨happ, hlongest.isLexeme, hends (happ ▸ hlongest)⟩
    rw [scan_of_isLexeme hlexeme hend] at hscan
    cases hscan
    exact hle

end Lexeme

namespace Token

open Lexeme (isLexeme endsBefore IsLongest)

/-! ### Tokens with their gaps -/

/-- A token and the characters between it and the token before it. -/
structure Placed where
  gap : List Char
  token : Token
  deriving DecidableEq, Repr

/-- The text of tokens that stand one after the other with their gaps, and `last` after them. -/
def laidOut (ps : List Placed) (last : List Char) : List Char :=
  ps.flatMap (fun p => p.gap ++ p.token.text.toList) ++ last

@[simp] theorem laidOut_nil (last : List Char) : laidOut [] last = last := rfl

@[simp] theorem laidOut_cons (p : Placed) (ps : List Placed) (last : List Char) :
    laidOut (p :: ps) last = p.gap ++ (p.token.text.toList ++ laidOut ps last) := by
  simp [laidOut]

/-- All gaps are runs of blanks, and the mark of a token says whether its gap is one that is not
empty. -/
structure IsLayout (ps : List Placed) (last : List Char) : Prop where
  blank : ∀ p ∈ ps, ∀ c ∈ p.gap, isBlank c = true
  blank_last : ∀ c ∈ last, isBlank c = true
  spaced : ∀ p ∈ ps, p.token.spaced = true ↔ p.gap ≠ []

/-- All gaps are runs of blanks, and every token is the longest lexeme at its place. -/
structure IsMunch (ps : List Placed) (last : List Char) : Prop extends IsLayout ps last where
  longest : ∀ before p after, ps = before ++ p :: after →
    IsLongest p.token.kind p.token.text.toList (p.token.text.toList ++ laidOut after last)

theorem isLayout_cons_iff {p : Placed} {ps : List Placed} {last : List Char} :
    IsLayout (p :: ps) last ↔ (∀ c ∈ p.gap, isBlank c = true) ∧
      (p.token.spaced = true ↔ p.gap ≠ []) ∧ IsLayout ps last := by
  constructor
  · intro h
    have hblank := List.forall_mem_cons.1 h.blank
    have hspaced := List.forall_mem_cons.1 h.spaced
    exact ⟨hblank.1, hspaced.1, hblank.2, h.blank_last, hspaced.2⟩
  · rintro ⟨hblank, hspaced, h⟩
    exact ⟨List.forall_mem_cons.2 ⟨hblank, h.blank⟩, h.blank_last,
      List.forall_mem_cons.2 ⟨hspaced, h.spaced⟩⟩

/-- The first token is the longest lexeme at its place, and so are the others at theirs. -/
theorem isMunch_cons_iff {p : Placed} {ps : List Placed} {last : List Char} :
    IsMunch (p :: ps) last ↔ (∀ c ∈ p.gap, isBlank c = true) ∧
      (p.token.spaced = true ↔ p.gap ≠ []) ∧
      (isLexeme p.token.kind p.token.text.toList = true ∧
        endsBefore p.token.kind p.token.text.toList (laidOut ps last) = true) ∧
      IsMunch ps last := by
  constructor
  · intro h
    obtain ⟨hblank, hspaced, hlayout⟩ := isLayout_cons_iff.1 h.toIsLayout
    refine ⟨hblank, hspaced, Lexeme.isLongest_iff.1 (h.longest [] p ps rfl), hlayout, ?_⟩
    exact fun before q after hps => h.longest (p :: before) q after (by rw [hps]; rfl)
  · rintro ⟨hblank, hspaced, hlongest, h⟩
    refine ⟨isLayout_cons_iff.2 ⟨hblank, hspaced, h.toIsLayout⟩, fun before q after hps => ?_⟩
    cases before with
    | nil =>
        obtain ⟨rfl, rfl⟩ := List.cons.inj hps
        exact Lexeme.isLongest_iff.2 hlongest
    | cons r before => exact h.longest before q after (List.cons.inj hps).2

theorem isMunch_nil {last : List Char} (h : ∀ c ∈ last, isBlank c = true) : IsMunch [] last :=
  ⟨⟨by simp, h, by simp⟩, by simp⟩

/-! ### Places of a text -/

/-- The character at index `i` of tokens that are laid out stands in a literal among them. -/
def StandsInLiteral (ps : List Placed) (i : Nat) : Prop :=
  ∃ before p after, ps = before ++ p :: after ∧ p.token.kind = .literal ∧
    (laidOut before p.gap).length ≤ i ∧
    i < (laidOut before p.gap).length + p.token.text.toList.length

theorem not_standsInLiteral_nil (i : Nat) : ¬StandsInLiteral [] i := by
  rintro ⟨before, p, after, hps, -⟩
  simp at hps

/-- A place in a literal is in the first token, or in a literal after it. -/
theorem standsInLiteral_cons_iff {p : Placed} {ps : List Placed} {i : Nat} :
    StandsInLiteral (p :: ps) i ↔
      (p.token.kind = .literal ∧ p.gap.length ≤ i ∧
        i < p.gap.length + p.token.text.toList.length) ∨
      (p.gap.length + p.token.text.toList.length ≤ i ∧
        StandsInLiteral ps (i - (p.gap.length + p.token.text.toList.length))) := by
  constructor
  · rintro ⟨before, q, after, hps, hkind, hstart, hend⟩
    cases before with
    | nil =>
        obtain ⟨rfl, rfl⟩ := List.cons.inj hps
        exact .inl ⟨hkind, hstart, hend⟩
    | cons p' before =>
        obtain ⟨rfl, rfl⟩ := List.cons.inj hps
        simp only [laidOut_cons, List.length_append] at hstart hend
        exact .inr ⟨by omega, before, q, after, rfl, hkind, by omega, by omega⟩
  · rintro (⟨hkind, hstart, hend⟩ | ⟨hle, before, q, after, rfl, hkind, hstart, hend⟩)
    · exact ⟨[], p, ps, rfl, hkind, hstart, hend⟩
    · refine ⟨p :: before, q, after, rfl, hkind, ?_, ?_⟩ <;>
        simp only [laidOut_cons, List.length_append] <;> omega

instance decidableStandsInLiteral : ∀ (ps : List Placed) (i : Nat), Decidable (StandsInLiteral ps i)
  | [], i => isFalse (not_standsInLiteral_nil i)
  | p :: ps, i =>
    have := decidableStandsInLiteral ps (i - (p.gap.length + p.token.text.toList.length))
    decidable_of_iff _ standsInLiteral_cons_iff.symm

/-! ### Reading tokens with their gaps -/

/-- Nothing is read of a gap. -/
theorem Reads.of_gap {spaced : Bool} {gap cs : List Char} {ts : List Token}
    (hgap : ∀ c ∈ gap, isBlank c = true) (h : Reads (spaced || !gap.isEmpty) cs ts) :
    Reads spaced (gap ++ cs) ts := by
  induction gap generalizing spaced with
  | nil => simpa using h
  | cons c gap ih =>
      rw [List.forall_mem_cons] at hgap
      exact .blank hgap.1 (ih hgap.2 (by simpa using h))

/-- Nothing is read of blanks. -/
theorem reads_of_blank {cs : List Char} (h : ∀ c ∈ cs, isBlank c = true) (spaced : Bool) :
    Reads spaced cs [] := by
  have hread : Reads spaced (cs ++ []) [] := Reads.of_gap h (.nil _)
  rwa [List.append_nil] at hread

/-- A gap is seen in the space mark of the first token alone. -/
theorem reads_gap_append_iff {spaced : Bool} {gap cs : List Char} {ts : List Token}
    (hgap : ∀ c ∈ gap, isBlank c = true) :
    Reads spaced (gap ++ cs) ts ↔ Reads (spaced || !gap.isEmpty) cs ts := by
  refine ⟨fun h => ?_, Reads.of_gap hgap⟩
  induction gap generalizing spaced with
  | nil => simpa using h
  | cons c gap ih =>
      rw [List.forall_mem_cons] at hgap
      simpa using ih hgap.2 (h.of_blank hgap.1)

/-- A token is marked when its gap is not empty. -/
theorem not_isEmpty_gap_eq {p : Placed} (h : p.token.spaced = true ↔ p.gap ≠ []) :
    (false || !p.gap.isEmpty) = p.token.spaced := by
  rw [Bool.false_or, Bool.eq_iff_iff, h]
  simp

/-- The longest lexemes of a text are the tokens that it is read as. -/
theorem IsMunch.reads {ps : List Placed} {last : List Char} (h : IsMunch ps last) :
    Reads false (laidOut ps last) (ps.map Placed.token) := by
  induction ps with
  | nil => exact reads_of_blank h.blank_last false
  | cons p ps ih =>
      obtain ⟨hblank, hspaced, ⟨hlexeme, hends⟩, hps⟩ := isMunch_cons_iff.1 h
      rw [laidOut_cons, List.map_cons]
      refine Reads.of_gap hblank ?_
      have hread : Reads p.token.spaced (p.token.text.toList ++ laidOut ps last)
          (⟨p.token.kind, String.ofList p.token.text.toList, p.token.spaced⟩ ::
            ps.map Placed.token) := .lexeme hlexeme hends (ih hps)
      rw [String.ofList_toList] at hread
      rwa [not_isEmpty_gap_eq hspaced]

/-- A text is read as its longest lexemes.  The blanks of `gap` stand before the text. -/
theorem Reads.exists_isMunch {spaced : Bool} {cs : List Char} {ts : List Token}
    (h : Reads spaced cs ts) {gap : List Char} (hgap : ∀ c ∈ gap, isBlank c = true)
    (hspaced : spaced = true ↔ gap ≠ []) :
    ∃ ps last, gap ++ cs = laidOut ps last ∧ IsMunch ps last ∧ ps.map Placed.token = ts := by
  induction h generalizing gap with
  | nil => exact ⟨[], gap, by simp, isMunch_nil hgap, rfl⟩
  | @blank spaced c cs ts hc _ ih =>
      have hgap' : ∀ d ∈ gap ++ [c], isBlank d = true := by
        intro d hd
        rcases List.mem_append.1 hd with hd | hd
        · exact hgap d hd
        · rwa [List.mem_singleton.1 hd]
      obtain ⟨ps, last, happ, hps⟩ := ih hgap' (by simp)
      exact ⟨ps, last, by rw [← happ]; simp, hps⟩
  | @lexeme spaced k text rest ts hlexeme hends _ ih =>
      obtain ⟨ps, last, happ, hps, rfl⟩ := ih (List.forall_mem_nil _) (by simp)
      rw [List.nil_append] at happ
      refine ⟨⟨gap, ⟨k, String.ofList text, spaced⟩⟩ :: ps, last, by simp [happ], ?_, rfl⟩
      refine isMunch_cons_iff.2 ⟨hgap, hspaced, ?_, hps⟩
      rw [String.toList_ofList, ← happ]
      exact ⟨hlexeme, hends⟩

/-! ### What the lexer makes of a text -/

/-- **The tokens of a text are its longest lexemes**, with gaps of blanks between them. -/
theorem lex_eq_ok_iff_isMunch {text : String} {ts : List Token} :
    lex text = .ok ts ↔ ∃ ps last, text.toList = laidOut ps last ∧ IsMunch ps last ∧
      ps.map Placed.token = ts := by
  rw [lex_eq_ok_iff]
  constructor
  · intro h
    exact h.exists_isMunch (List.forall_mem_nil _) (by simp)
  · rintro ⟨ps, last, htext, hps, rfl⟩
    rw [htext]
    exact hps.reads

/-- **What the lexer makes of a text.**  It succeeds exactly when the text is made of tokens with
gaps of blanks, each token the longest lexeme at its place and marked when its gap is not empty; and
it fails exactly when, after a beginning that it reads, there is at the byte offset that is reported
a character that begins no lexeme, or a quote whose literal is open at the end of its line. -/
theorem lex_eq_iff (text : String) :
    (∀ ts, lex text = .ok ts ↔ ∃ ps last, text.toList = laidOut ps last ∧ IsMunch ps last ∧
      ps.map Placed.token = ts) ∧
    ∀ e, lex text = .error e ↔ ∃ before after : String, text = before ++ after ∧
      (∃ ts, lex before = .ok ts) ∧ StopsAt before.utf8ByteSize after.toList e :=
  ⟨fun _ => lex_eq_ok_iff_isMunch, fun _ => lex_eq_error_iff⟩

end Token

end VariadicMacros
