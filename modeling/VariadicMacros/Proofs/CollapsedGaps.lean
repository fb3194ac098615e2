/-
**Spelling and lexing again.**

The tokens of a text are told apart by their spellings and by where there is a gap between them,
and not by what the gaps are made of: a token ends at a blank, and where it touches the next one the
longest lexeme is decided by the two of them, or by a third one when they are points.  A text that
is spelled from tokens with single spaces is therefore read as the same tokens, and so is the text
that they come from when its gaps are collapsed.

Main definitions:

* `VariadicMacros.Token.Placed.collapse` — a gap becomes one space, or stays empty.

Main results:

* `VariadicMacros.Token.endsBefore_laidOut_iff` — where a lexeme ends does not depend on what the
  gaps are made of;
* `VariadicMacros.Token.isMunch_iff` — neither does which tokens are the longest lexemes;
* `VariadicMacros.Token.lex_laidOut_of_lex` — texts with gaps in the same places are read alike;
* `VariadicMacros.Token.lex_spell_of_lex` — **the spelling of the tokens of a text is read as these
  tokens**.
-/

import VariadicMacros.Proofs.LongestLexemes
import VariadicMacros.Proofs.PrintedTokens

set_option autoImplicit false

namespace VariadicMacros

open Text

namespace Token

open Lexeme (isLexeme endsBefore)

/-! ### What the gaps are made of -/

/-- A lexeme ends at a blank. -/
theorem endsBefore_blank (k : Kind) (text : List Char) {b : Char} (hb : isBlank b = true)
    (more : List Char) : endsBefore k text (b :: more) = true :=
  Lexeme.endsBefore_append_blank (Lexeme.endsBefore_nil k text) hb more

theorem isLexeme_of_endsEach {ts : List Token} (h : endsEach ts = true) :
    ∀ t ∈ ts, isLexeme t.kind t.text.toList = true :=
  (reads_of_endsEach h).isLexeme_of_mem

section Layouts

variable {p : Placed} {ps : List Placed} {last : List Char}

/-- Blanks after the last token are none, or start with one. -/
theorem IsLayout.last_cases (h : IsLayout ps last) :
    last = [] ∨ ∃ b more, isBlank b = true ∧ last = b :: more := by
  cases hlast : last with
  | nil => exact .inl rfl
  | cons b more => exact .inr ⟨b, more, h.blank_last b (by simp [hlast]), rfl⟩

/-- Where the first token has a gap before it there is a blank in the layout, and a space in the
writing. -/
theorem IsLayout.cons_cases (h : IsLayout (p :: ps) last) :
    (laidOut (p :: ps) last = p.token.text.toList ++ laidOut ps last ∧
      written ((p :: ps).map Placed.token) =
        p.token.text.toList ++ written (ps.map Placed.token)) ∨
    ∃ b more more', isBlank b = true ∧ laidOut (p :: ps) last = b :: more ∧
      written ((p :: ps).map Placed.token) = ' ' :: more' := by
  obtain ⟨hblank, hspaced, -⟩ := isLayout_cons_iff.1 h
  cases hgap : p.gap with
  | nil =>
      have hmark : p.token.spaced = false := by simpa [hgap] using hspaced
      exact .inl (by simp [hgap, chars, hmark])
  | cons b gap =>
      have hmark : p.token.spaced = true := by simp [hspaced, hgap]
      exact .inr ⟨b, _, _, hblank b (by simp [hgap]), by rw [laidOut_cons, hgap]; rfl,
        by rw [List.map_cons, written_cons, chars, if_pos hmark]; rfl⟩

/-- A layout starts with a point when its first token does and has no gap before it. -/
theorem head?_laidOut_eq_point_iff (h : IsLayout ps last)
    (hlexemes : ∀ t ∈ ps.map Placed.token, isLexeme t.kind t.text.toList = true) :
    (laidOut ps last).head? = some '.' ↔ (written (ps.map Placed.token)).head? = some '.' := by
  have hpoint : ∀ {b : Char}, isBlank b = true → b ≠ '.' := by
    rintro b hb rfl
    cases hb
  cases ps with
  | nil =>
      rcases h.last_cases with rfl | ⟨b, more, hb, rfl⟩
      · rfl
      · simp [hpoint hb]
  | cons p ps =>
      rcases h.cons_cases with ⟨hlaid, hwritten⟩ | ⟨b, more, more', hb, hlaid, hwritten⟩
      · obtain ⟨c, text, htext⟩ := List.exists_cons_of_ne_nil
          (Lexeme.ne_nil_of_isLexeme (hlexemes p.token (by simp)))
        rw [hlaid, hwritten, htext]
        rfl
      · rw [hlaid, hwritten]
        simp [hpoint hb]

/-- **Where a lexeme ends** does not depend on what the gaps after it are made of. -/
theorem endsBefore_laidOut_iff {k : Kind} {text : List Char} (htext : isLexeme k text = true)
    (h : IsLayout ps last)
    (hlexemes : ∀ t ∈ ps.map Placed.token, isLexeme t.kind t.text.toList = true) :
    endsBefore k text (laidOut ps last) = true ↔
      endsBefore k text (written (ps.map Placed.token)) = true := by
  cases ps with
  | nil =>
      rcases h.last_cases with rfl | ⟨b, more, hb, rfl⟩
      · rfl
      · simp [endsBefore_blank k text hb, Lexeme.endsBefore_nil]
  | cons p ps =>
      obtain ⟨-, -, hlayout⟩ := isLayout_cons_iff.1 h
      rcases h.cons_cases with ⟨hlaid, hwritten⟩ | ⟨b, more, more', hb, hlaid, hwritten⟩
      · -- The next token touches, and the one after it counts when it starts with a point.
        rw [List.map_cons, List.forall_mem_cons] at hlexemes
        have hne := Lexeme.ne_nil_of_isLexeme hlexemes.1
        rw [hlaid, hwritten, Lexeme.endsBefore_append_iff htext hne,
          Lexeme.endsBefore_append_iff htext hne, ne_eq,
          head?_laidOut_eq_point_iff hlayout hlexemes.2]
      · have hspace : isBlank ' ' = true := by decide
        rw [hlaid, hwritten, endsBefore_blank k text hb, endsBefore_blank k text hspace]

end Layouts

/-- **The longest lexemes** are told by the tokens and by where there are gaps. -/
theorem isMunch_iff {ps : List Placed} {last : List Char} :
    IsMunch ps last ↔ IsLayout ps last ∧ endsEach (ps.map Placed.token) = true := by
  induction ps with
  | nil => exact ⟨fun h => ⟨h.toIsLayout, rfl⟩, fun h => isMunch_nil h.1.blank_last⟩
  | cons p ps ih =>
      rw [isMunch_cons_iff, ih, isLayout_cons_iff, List.map_cons, endsEach, Bool.and_eq_true,
        Bool.and_eq_true]
      constructor
      · rintro ⟨hblank, hspaced, ⟨hlexeme, hends⟩, hlayout, hps⟩
        have hends' := (endsBefore_laidOut_iff hlexeme hlayout (isLexeme_of_endsEach hps)).1 hends
        exact ⟨⟨hblank, hspaced, hlayout⟩, ⟨hlexeme, hends'⟩, hps⟩
      · rintro ⟨⟨hblank, hspaced, hlayout⟩, ⟨hlexeme, hends⟩, hps⟩
        have hends' := (endsBefore_laidOut_iff hlexeme hlayout (isLexeme_of_endsEach hps)).2 hends
        exact ⟨hblank, hspaced, ⟨hlexeme, hends'⟩, hlayout, hps⟩

/-- The tokens of a text end where the next ones begin. -/
theorem endsEach_of_lex {text : String} {ts : List Token} (h : lex text = .ok ts) :
    endsEach ts = true := by
  obtain ⟨ps, last, -, hps, rfl⟩ := lex_eq_ok_iff_isMunch.1 h
  exact (isMunch_iff.1 hps).2

/-! ### Collapsing gaps -/

/-- The same token after one space, or after none if there was no gap. -/
def Placed.collapse (p : Placed) : Placed :=
  { p with gap := if p.gap.isEmpty then [] else [' '] }

theorem map_token_collapse (ps : List Placed) :
    (ps.map Placed.collapse).map Placed.token = ps.map Placed.token := by
  rw [List.map_map]
  rfl

/-- A layout stays one when its gaps are collapsed, whatever blanks come last. -/
theorem IsLayout.collapse {ps : List Placed} {last last' : List Char} (h : IsLayout ps last)
    (hlast : ∀ c ∈ last', isBlank c = true) : IsLayout (ps.map Placed.collapse) last' := by
  refine ⟨fun q hq => ?_, hlast, fun q hq => ?_⟩
  · obtain ⟨p, -, rfl⟩ := List.mem_map.1 hq
    intro c hc
    simp only [Placed.collapse] at hc
    split at hc
    · cases hc
    · rw [List.mem_singleton.1 hc]
      decide
  · obtain ⟨p, hp, rfl⟩ := List.mem_map.1 hq
    simp only [Placed.collapse]
    rw [h.spaced p hp]
    cases p.gap <;> simp

/-- Texts with the same tokens and with gaps in the same places are read alike. -/
theorem lex_laidOut_of_lex {text : String} {ts : List Token} (h : lex text = .ok ts)
    {ps : List Placed} {last : List Char} (hps : IsLayout ps last)
    (htokens : ps.map Placed.token = ts) :
    lex (String.ofList (laidOut ps last)) = .ok ts := by
  have hends := endsEach_of_lex h
  rw [← htokens] at hends
  exact lex_eq_ok_iff_isMunch.2
    ⟨ps, last, String.toList_ofList, isMunch_iff.2 ⟨hps, hends⟩, htokens⟩

/-- **The spelling of the tokens of a text is read as these tokens**, with no gap before the first
one, so that spelling once more changes nothing.  The text itself, which is made of its longest
lexemes with gaps between them, is read as the same tokens when every gap is collapsed to one
space. -/
theorem lex_spell_of_lex {text : String} {ts : List Token} (h : lex text = .ok ts) :
    lex (spell ts) = .ok (respace false ts) ∧
      (lex (spell ts)).map spell = .ok (spell ts) ∧
      (∃ ps last, text.toList = laidOut ps last ∧ IsMunch ps last) ∧
      ∀ ps last, text.toList = laidOut ps last → IsMunch ps last →
        ∀ last', (∀ c ∈ last', isBlank c = true) →
          lex (String.ofList (laidOut (ps.map Placed.collapse) last')) = .ok ts := by
  have hspell : lex (spell ts) = .ok (respace false ts) :=
    (readsBack_iff_endsEach.2 (endsEach_of_lex h)).lex_spell
  obtain ⟨ps, last, htext, hps, -⟩ := lex_eq_ok_iff_isMunch.1 h
  refine ⟨hspell, by rw [hspell, Except.map, spell_respace], ⟨ps, last, htext, hps⟩, ?_⟩
  intro ps last htext hps last' hlast
  have hlex := lex_eq_ok_iff_isMunch.2 ⟨ps, last, htext, hps, rfl⟩
  rw [h, Except.ok.injEq] at hlex
  exact lex_laidOut_of_lex h (hps.toIsLayout.collapse hlast)
    ((map_token_collapse ps).trans hlex.symm)

/-- Points before a digit, signs after an exponent, and a literal that holds a line feed. -/
theorem lex_spell_of_lex_points :
    ∃ ts, lex "\t..\n\n.5e+ +x '\\\n'\n" = .ok ts ∧
      spell ts = ".. .5e+ +x '\\\n'" ∧ lex ".. .5e+ +x '\\\n'" = .ok (respace false ts) ∧
      lex " .. .5e+ +x '\\\n' " = .ok ts := by
  obtain ⟨ps, hps⟩ : ∃ ps : List Placed, ps = [⟨['\t'], (mark ".").afterSpace⟩, ⟨[], mark "."⟩,
    ⟨['\n', '\n'], (number ".5e+").afterSpace⟩, ⟨[' '], (mark "+").afterSpace⟩, ⟨[], name "x"⟩,
    ⟨[' '], ⟨.literal, "'\\\n'", true⟩⟩] := ⟨_, rfl⟩
  have hends : endsEach (ps.map Placed.token) = true := by
    subst hps
    cbv
  have hlayout : IsLayout ps ['\n'] := by
    subst hps
    constructor <;> simp <;> decide
  have htext : "\t..\n\n.5e+ +x '\\\n'\n".toList = laidOut ps ['\n'] := by
    subst hps
    rfl
  have hspell : spell (ps.map Placed.token) = ".. .5e+ +x '\\\n'" := by
    subst hps
    cbv
  have hcollapsed : String.ofList (laidOut (ps.map Placed.collapse) [' ']) =
      " .. .5e+ +x '\\\n' " := by
    subst hps
    cbv
  have hmunch := isMunch_iff.2 ⟨hlayout, hends⟩
  have hlex := lex_eq_ok_iff_isMunch.2 ⟨ps, ['\n'], htext, hmunch, rfl⟩
  obtain ⟨hread, -, -, hall⟩ := lex_spell_of_lex hlex
  have hsame := hall ps ['\n'] htext hmunch [' '] (List.forall_mem_singleton.2 (by decide))
  rw [hspell] at hread
  rw [hcollapsed] at hsame
  exact ⟨_, hlex, hspell, hread, hsame⟩

end Token

end VariadicMacros
