/-
**When a redefinition says the same.**

Whether a macro is defined once more in the same way is told by its parameters and by the spellings
and space marks of its replacement list.  The kinds of the tokens are not compared, and need not be:
a spelling is a lexeme of one kind only.  So two definitions that are read are interchangeable
exactly when they are the same up to their names.

The spelling does not tell either which blanks stand between the tokens of a text, or how many.  A
text of a definition in which a run of blanks outside of literals is exchanged for another run is a
text of the same definition.  The equals sign that ends the head of a definition stays the first
one, and what is read before a blank and what is read after it does not depend on the blanks that
follow it.

Main definitions:

* `VariadicMacros.Definition.Respaced` — a text of a definition with other blanks at a place.

Main results:

* `VariadicMacros.Token.exists_reads_of_outside` — a blank outside of literals keeps the tokens
  before it and after it apart;
* `VariadicMacros.Definition.eq_iff_interchangeable` — definitions that are read are told apart by
  their names and their spellings;
* `VariadicMacros.Definition.ofCommandLine_of_respaced` — which blanks a text has does not matter;
* `VariadicMacros.Definition.ofCommandLine_eq_iff` — **what a redefinition compares**.
-/

import VariadicMacros.Proofs.CollapsedGaps
import VariadicMacros.Proofs.CommandLineForms
import VariadicMacros.Proofs.GenuineTokens

set_option autoImplicit false

namespace VariadicMacros

open Text

/-! ### Spellings and kinds -/

namespace Token

/-- Lexemes with the same spelling are tokens of the same kind. -/
theorem kind_eq_of_text_eq {t u : Token} (ht : Lexeme.isLexeme t.kind t.text.toList = true)
    (hu : Lexeme.isLexeme u.kind u.text.toList = true) (htext : t.text = u.text) :
    t.kind = u.kind := by
  rw [htext] at ht
  exact Lexeme.kind_eq_of_isLexeme ht hu

/-- Lists of lexemes are told apart by their spellings and space marks. -/
theorem eq_of_map_spelling_eq {ts us : List Token}
    (hts : ∀ t ∈ ts, Lexeme.isLexeme t.kind t.text.toList = true)
    (hus : ∀ u ∈ us, Lexeme.isLexeme u.kind u.text.toList = true)
    (h : ts.map (fun t => (t.text, t.spaced)) = us.map fun u => (u.text, u.spaced)) : ts = us := by
  have hsame : ts.map id = us.map id := by
    refine map_eq_map_of_map_eq_map h fun t ht u hu hspelling => ?_
    obtain ⟨htext, hspaced⟩ := Prod.mk.inj hspelling
    have hkind := kind_eq_of_text_eq (hts t ht) (hus u hu) htext
    cases t
    cases u
    simp_all
  rwa [List.map_id, List.map_id] at hsame

/-! ### Blanks between tokens -/

section Blanks

variable {ps : List Placed} {last cs ds : List Char} {b : Char} (hb : isBlank b = true)

include hb

/-- A blank after a lexeme is not in the lexeme, unless that is a literal. -/
theorem exists_of_lexeme_append {k : Kind} {text rest : List Char}
    (hlexeme : Lexeme.isLexeme k text = true) (happ : text ++ rest = cs ++ b :: ds)
    (hliteral : k = .literal → text.length ≤ cs.length) :
    ∃ more, cs = text ++ more ∧ rest = more ++ b :: ds := by
  rcases List.append_eq_append_iff.1 happ with ⟨more, hcs, hrest⟩ | ⟨more, htext, hrest⟩
  · exact ⟨more, hcs, hrest⟩
  · cases more with
    | nil => exact ⟨[], by simpa using htext.symm, by simpa using hrest.symm⟩
    | cons c more =>
        obtain ⟨rfl, -⟩ := List.cons.inj hrest
        have hkind : k ≠ .literal := fun hkind => by
          have hle := hliteral hkind
          simp [htext] at hle
        obtain ⟨hnumber, hmark⟩ := Lexeme.number_and_punctuators_of_isBlank hb
        exact absurd (by simp [htext]) (Lexeme.notMem_of_isLexeme hlexeme hkind hnumber hmark)

/-- Before a blank that only blanks stand before nothing is read. -/
theorem exists_reads_of_first (h : IsMunch ps last) (htext : laidOut ps last = cs ++ b :: ds)
    (hcs : ∀ c ∈ cs, isBlank c = true) :
    ∃ ts us, Reads false cs ts ∧ Reads true ds us ∧ ps.map Placed.token = ts ++ us := by
  have hread := h.reads
  rw [htext, reads_gap_append_iff hcs] at hread
  exact ⟨[], _, reads_of_blank hcs false, hread.of_blank hb, rfl⟩

/-- **A blank outside of the literals** of a text stands between the tokens before it and the tokens
after it. -/
theorem exists_reads_of_outside (h : IsMunch ps last) (htext : laidOut ps last = cs ++ b :: ds)
    (hplace : ¬StandsInLiteral ps cs.length) :
    ∃ ts us, Reads false cs ts ∧ Reads true ds us ∧ ps.map Placed.token = ts ++ us := by
  induction ps generalizing cs with
  | nil =>
      refine exists_reads_of_first hb h htext fun c hc => h.blank_last c ?_
      rw [show last = cs ++ b :: ds from htext]
      exact List.mem_append_left _ hc
  | cons p ps ih =>
      obtain ⟨hblank, hspaced, ⟨hlexeme, hends⟩, hps⟩ := isMunch_cons_iff.1 h
      have hlaid := htext
      rw [laidOut_cons, List.append_eq_append_iff] at hlaid
      rcases hlaid with ⟨more, rfl, hmore⟩ | ⟨more, hgap, -⟩
      · rw [standsInLiteral_cons_iff, not_or] at hplace
        have hliteral : p.token.kind = .literal → p.token.text.toList.length ≤ more.length := by
          intro hkind
          by_contra hlt
          exact hplace.1 ⟨hkind, by simp, by simpa using hlt⟩
        obtain ⟨cs, rfl, hrest⟩ := exists_of_lexeme_append hb hlexeme hmore hliteral
        have hplace' : ¬StandsInLiteral ps cs.length := fun hin =>
          hplace.2 ⟨by simp, by simpa [← Nat.add_assoc] using hin⟩
        obtain ⟨ts, us, hts, hus, htokens⟩ := ih hps hrest hplace'
        rw [hrest] at hends
        have hread : Reads p.token.spaced (p.token.text.toList ++ cs)
            (⟨p.token.kind, String.ofList p.token.text.toList, p.token.spaced⟩ :: ts) :=
          .lexeme hlexeme (Lexeme.endsBefore_of_append hends) hts
        rw [String.ofList_toList] at hread
        refine ⟨p.token :: ts, us, (reads_gap_append_iff hblank).2 ?_, hus, by simp [htokens]⟩
        rwa [not_isEmpty_gap_eq hspaced]
      · refine exists_reads_of_first hb h htext fun c hc => hblank c ?_
        rw [hgap]
        exact List.mem_append_left _ hc

end Blanks

end Token

namespace Definition

/-- **Definitions that are read are told apart** by their names and by what a redefinition
compares. -/
theorem eq_iff_interchangeable {a b : Definition} (ha : a.IsRead) (hb : b.IsRead) :
    a = b ↔ a.name = b.name ∧ a.interchangeable b = true := by
  rw [interchangeable_iff]
  constructor
  · rintro rfl
    exact ⟨rfl, rfl, rfl, rfl⟩
  · rintro ⟨hname, hparameters, hvariadic, hspelling⟩
    have hbody : a.body = b.body :=
      Token.eq_of_map_spelling_eq (isLexeme_of_isRead ha) (isLexeme_of_isRead hb) hspelling
    cases a
    cases b
    simp_all

/-! ### The blanks of a definition -/

open Token (Placed laidOut IsMunch StandsInLiteral)

/-- The second text is the first one with a run of blanks exchanged for another run.  The first text
is that of a definition, and the run starts outside of the literals among its tokens; the text that
these are read from has the characters of the definition at the same places, its equals sign
excepted.  Nothing is asked of what stands around the run, which may be part of a longer one. -/
inductive Respaced : List Char → List Char → Prop
  | exchange {start blanks blanks' rest last : List Char} {ps : List Placed}
      (htext : directiveText (start ++ blanks ++ rest) = laidOut ps last) (hmunch : IsMunch ps last)
      (hplace : ¬StandsInLiteral ps start.length) (hblank : ∀ c ∈ blanks, isBlank c = true)
      (hblank' : ∀ c ∈ blanks', isBlank c = true) (hne : blanks ≠ []) (hne' : blanks' ≠ []) :
      Respaced (start ++ blanks ++ rest) (start ++ blanks' ++ rest)

theorem directiveText_of_notMem {cs : List Char} (h : '=' ∉ cs) :
    directiveText cs = cs ++ [' ', '1'] := by
  have hdrop : cs.dropWhile (· != '=') = [] := by
    rw [List.dropWhile_eq_nil_iff]
    intro c hc
    rw [bne_iff_ne]
    rintro rfl
    exact h hc
  simp only [directiveText, splitAtEquals, hdrop]

/-- Characters other than the equals sign stay where they are, whatever stands around them. -/
theorem exists_directiveText_eq (start rest : List Char) :
    ∃ start' rest', start'.length = start.length ∧ ∀ cs, '=' ∉ cs →
      directiveText (start ++ cs ++ rest) = start' ++ cs ++ rest' := by
  by_cases hstart : '=' ∈ start
  · obtain ⟨head, body, rfl, hhead⟩ := List.eq_append_cons_of_mem hstart
    refine ⟨head ++ ' ' :: body, rest, by simp, fun cs _ => ?_⟩
    have happ : head ++ '=' :: body ++ cs ++ rest = head ++ '=' :: (body ++ cs ++ rest) := by simp
    rw [happ, directiveText_append_equals hhead]
    simp
  · by_cases hrest : '=' ∈ rest
    · obtain ⟨head, body, rfl, hhead⟩ := List.eq_append_cons_of_mem hrest
      refine ⟨start, head ++ ' ' :: body, rfl, fun cs hcs => ?_⟩
      have hnone : '=' ∉ start ++ cs ++ head := by simp [hstart, hcs, hhead]
      rw [← List.append_assoc, directiveText_append_equals hnone]
      simp
    · refine ⟨start, rest ++ [' ', '1'], rfl, fun cs hcs => ?_⟩
      rw [directiveText_of_notMem (by simp [hstart, hcs, hrest])]
      simp

/-- **A text with other blanks is read as the same tokens.** -/
theorem Respaced.lexChars_eq {text edited : List Char} (h : Respaced text edited)
    {ts : List Token} (hlex : Token.lexChars (directiveText text) = .ok ts) :
    Token.lexChars (directiveText edited) = .ok ts := by
  cases h with
  | @exchange start blanks blanks' rest last ps htext hmunch hplace hblank hblank' hne hne' =>
      have hequals : ∀ {cs : List Char}, (∀ c ∈ cs, isBlank c = true) → '=' ∉ cs :=
        fun hcs hmem => nomatch hcs '=' hmem
      obtain ⟨start', rest', hlength, happ⟩ := exists_directiveText_eq start rest
      obtain ⟨b, more, rfl⟩ := List.exists_cons_of_ne_nil hne
      obtain ⟨b', more', rfl⟩ := List.exists_cons_of_ne_nil hne'
      rw [htext, Token.lexChars_eq_ok_iff.2 hmunch.reads] at hlex
      cases hlex
      rw [happ _ (hequals hblank), List.append_assoc] at htext
      rw [Token.lexChars_eq_ok_iff, happ _ (hequals hblank'), List.append_assoc]
      rw [List.forall_mem_cons] at hblank hblank'
      -- The tokens before and after the blanks do not depend on which blanks they are.
      obtain ⟨ts, us, hstart, hrest, htokens⟩ :=
        Token.exists_reads_of_outside hblank.1 hmunch htext.symm (hlength ▸ hplace)
      rw [List.append_eq, Token.reads_gap_append_iff hblank.2] at hrest
      rw [htokens]
      exact hstart.append_blank hblank'.1 ((Token.reads_gap_append_iff hblank'.2).2 hrest)

/-- **Which blanks the text of a definition has** does not matter. -/
theorem ofCommandLine_of_respaced {p q : String} {d : Definition}
    (h : ofCommandLine p = .ok d) (hq : Respaced p.toList q.toList) : ofCommandLine q = .ok d := by
  unfold ofCommandLine at h ⊢
  cases hlex : Token.lexChars (directiveText p.toList) with
  | error e =>
      rw [hlex] at h
      cases h
  | ok ts =>
      rw [hlex] at h
      rw [hq.lexChars_eq hlex]
      exact h

/-- **What a redefinition compares.**  Two definitions that are read are the same exactly when their
names are and they are interchangeable, and the spelling of a token in a replacement list tells its
kind.  The text of a definition with a run of blanks outside of literals exchanged for another run
is a text of the same definition, which is interchangeable with the same ones. -/
theorem ofCommandLine_eq_iff {p q : String} {a b : Definition} (ha : ofCommandLine p = .ok a)
    (hb : ofCommandLine q = .ok b) :
    (a = b ↔ a.name = b.name ∧ a.interchangeable b = true) ∧
      (∀ t ∈ a.body, ∀ u ∈ b.body, t.text = u.text → t.kind = u.kind) ∧
      ∀ p' : String, Respaced p.toList p'.toList →
        ∃ a', ofCommandLine p' = .ok a' ∧ a' = a ∧ a'.interchangeable b = a.interchangeable b := by
  have hread := isRead_of_ofCommandLine ha
  have hread' := isRead_of_ofCommandLine hb
  refine ⟨eq_iff_interchangeable hread hread', fun t ht u hu => ?_, fun p' hp' => ?_⟩
  · exact Token.kind_eq_of_text_eq (isLexeme_of_isRead hread t ht) (isLexeme_of_isRead hread' u hu)
  · exact ⟨a, ofCommandLine_of_respaced ha hp', rfl, rfl⟩

/-- Two blanks before a sign become a line feed, and those in the literal stay; another macro with
the same replacement list is interchangeable with this one, and is not the same. -/
theorem ofCommandLine_eq_iff_literal :
    ∃ p q p' : String, ∃ a b : Definition,
      p = "F(x)=x  + 'a  b'" ∧ q = "G( x)= x +\n'a  b'" ∧ p' = "F(x)=x\n+ 'a  b'" ∧
      ofCommandLine p = .ok a ∧ ofCommandLine q = .ok b ∧ a ≠ b ∧ a.interchangeable b = true ∧
      Respaced p.toList p'.toList ∧ ofCommandLine p' = .ok a := by
  obtain ⟨body, hbody⟩ : ∃ body : List Token, body = [.name "x", (Token.mark "+").afterSpace,
    ⟨.literal, "'a  b'", true⟩] := ⟨_, rfl⟩
  have hp : ofCommandLine "F(x)=x  + 'a  b'" = .ok ⟨"F", some ["x"], false, body⟩ := by
    subst hbody
    decide +kernel
  have hq : ofCommandLine "G( x)= x +\n'a  b'" = .ok ⟨"G", some ["x"], false, body⟩ := by
    subst hbody
    decide +kernel
  obtain ⟨ps, hps⟩ : ∃ ps : List Placed, ps = [⟨[], .name "F"⟩, ⟨[], .mark "("⟩, ⟨[], .name "x"⟩,
    ⟨[], .mark ")"⟩, ⟨[' '], (Token.name "x").afterSpace⟩,
    ⟨[' ', ' '], (Token.mark "+").afterSpace⟩, ⟨[' '], ⟨.literal, "'a  b'", true⟩⟩] := ⟨_, rfl⟩
  have hmunch : IsMunch ps [] := by
    subst hps
    refine Token.isMunch_iff.2 ⟨?_, by cbv⟩
    constructor <;> simp <;> decide
  have hrespaced : Respaced "F(x)=x  + 'a  b'".toList "F(x)=x\n+ 'a  b'".toList := by
    have htext : directiveText ("F(x)=x".toList ++ [' ', ' '] ++ "+ 'a  b'".toList) =
        laidOut ps [] := by
      subst hps
      rfl
    have hplace : ¬StandsInLiteral ps "F(x)=x".toList.length := by
      subst hps
      decide
    have hexchange : Respaced ("F(x)=x".toList ++ [' ', ' '] ++ "+ 'a  b'".toList)
        ("F(x)=x".toList ++ ['\n'] ++ "+ 'a  b'".toList) :=
      .exchange htext hmunch hplace (List.forall_mem_cons.2 ⟨rfl, List.forall_mem_singleton.2 rfl⟩)
        (List.forall_mem_singleton.2 rfl) (by simp) (by simp)
    exact hexchange
  obtain ⟨heq, -, hedit⟩ := ofCommandLine_eq_iff hp hq
  obtain ⟨a', ha', rfl, -⟩ := hedit _ hrespaced
  refine ⟨_, _, _, _, _, rfl, rfl, rfl, hp, hq, fun h => ?_, ?_, hrespaced, ha'⟩
  · have hname : "F" = "G" := (heq.1 h).1
    exact absurd hname (by decide)
  · exact interchangeable_iff.2 ⟨rfl, rfl, rfl⟩

end Definition

end VariadicMacros
