/-
**Every token of an expansion is a genuine one.**

The tokens of a text and of a replacement list are read as lexemes, the commas between the arguments
of an ellipsis are lexemes, and `##` makes a token only of what is read as one.  What remains is the
literal that `#` makes of such tokens.  It is a lexeme as well, unless the spelling between its
quotes holds a line feed; then it is open at the end of its line.  A literal of this kind may be an
argument of `#` again and does no further harm: every literal may stand between quotes once it is
escaped.

Main definitions:

* `VariadicMacros.Word.IsGenuine` — a lexeme, or a literal that a line feed breaks.

Main results:

* `VariadicMacros.MacroTable.Filed.keeps` — which properties of genuine words expansion keeps;
* `VariadicMacros.MacroTable.Reachable.lex_text_of_mem` — **every token of an expansion is read as
  itself**, a literal with a line feed that is left open excepted.
-/

import VariadicMacros.Proofs.DefinitionGrammar
import VariadicMacros.Proofs.Stringizing
import VariadicMacros.Proofs.TokenInvariants

set_option autoImplicit false

namespace VariadicMacros

open Lexeme (isLexeme)

namespace Definition

/-! ### Replacement lists that are read -/

/-- The replacement list of a definition is the end of the tokens that declare it. -/
theorem Declares.exists_suffix {tokens : List Token} {d : Definition} (h : Declares tokens d) :
    ∃ rest, rest <:+ tokens ∧ d.body = Token.respace false rest := by
  cases h with
  | @objectLike t body => exact ⟨body, List.suffix_cons t body, rfl⟩
  | @functionLike t opening close inside body =>
      exact ⟨body, ⟨t :: opening :: (inside ++ [close]), by simp⟩, rfl⟩

/-- The tokens of a replacement list that is read are lexemes. -/
theorem isLexeme_of_isRead {d : Definition} (h : d.IsRead) :
    ∀ t ∈ d.body, isLexeme t.kind t.text.toList = true := by
  obtain ⟨cs, tokens, hlex, hd⟩ := h
  obtain ⟨rest, hsuffix, hbody⟩ := (ofTokens_eq_ok_iff.1 hd).1.exists_suffix
  intro t ht
  rw [hbody] at ht
  obtain ⟨u, hu, hword⟩ := Token.exists_mem_of_mem_respace ht
  have hlexeme := (Token.lexChars_eq_ok_iff.1 hlex).isLexeme_of_mem u (hsuffix.subset hu)
  have hkind : u.kind = t.kind := congrArg Word.kind hword
  have htext : u.text = t.text := congrArg Word.text hword
  rwa [hkind, htext] at hlexeme

end Definition

/-- What `##` makes is a lexeme. -/
theorem Substitution.isLexeme_of_join? {left right glued : Painted}
    (h : join? left right = some glued) : isLexeme glued.kind glued.text.toList = true := by
  obtain ⟨t, ht, rfl⟩ := Option.map_eq_some_iff.1 h
  unfold Token.ofText? at ht
  split at ht
  · next hlex =>
    cases ht
    exact (Token.lex_eq_ok_iff.1 hlex).isLexeme_of_mem t List.mem_cons_self
  · cases ht

/-! ### Genuine words -/

/-- A word that is a lexeme, or a literal that a line feed breaks. -/
def Word.IsGenuine (w : Word) : Prop :=
  isLexeme w.kind w.text.toList = true ∨
    (w.kind = .literal ∧ '\n' ∈ w.text.toList ∧
      Token.lex w.text = .error (.unterminated .literal 0))

/-- The literal that `#` makes is genuine if all other tokens of the argument are lexemes. -/
theorem Substitution.isGenuine_stringize {argument : List Painted}
    (h : Spellable (argument.map Painted.toToken)) (spaced : Bool) :
    (stringize argument spaced).word.IsGenuine := by
  have hlex := lex_stringize h spaced
  split at hlex
  · next hline =>
    obtain ⟨inner, htext, hquotes⟩ := exists_quotes_stringize h spaced
    obtain ⟨body, rest, rfl, -⟩ := hquotes.exists_literalBody hline
    have hmem : '\n' ∈ (stringize argument spaced).text.toList := by
      rw [htext]
      simp
    exact .inr ⟨rfl, hmem, hlex⟩
  · have hlexeme := (Token.lex_eq_ok_iff.1 hlex).isLexeme_of_mem _ List.mem_cons_self
    exact .inl hlexeme

/-- **Expansion keeps what holds of genuine words** if it tells of words other than literals that
they are lexemes. -/
theorem MacroTable.Filed.keeps {table : MacroTable} (h : table.Filed) {P : Word → Prop}
    (hgenuine : ∀ {w : Word}, w.IsGenuine → P w)
    (hlexeme : ∀ {w : Word}, P w → w.kind ≠ .literal → isLexeme w.kind w.text.toList = true) :
    table.Keeps P where
  body hd t ht := hgenuine (.inl (Definition.isLexeme_of_isRead (h _ _ hd).2 t ht))
  comma := hgenuine (.inl (by decide))
  stringize := by
    intro argument spaced hargument
    have hspellable : Substitution.Spellable (argument.map Painted.toToken) :=
      List.forall_mem_map.2 fun p hp => hlexeme (hargument p hp)
    exact hgenuine (Substitution.isGenuine_stringize hspellable spaced)
  join _ _ hglued := hgenuine (.inl (Substitution.isLexeme_of_join? hglued))

/-- Expansion keeps words genuine. -/
theorem MacroTable.Filed.keeps_isGenuine {table : MacroTable} (h : table.Filed) :
    table.Keeps Word.IsGenuine :=
  h.keeps id fun hw hkind => hw.resolve_right fun hliteral => hkind hliteral.1

namespace MacroTable

/-- **Every token of an expansion is read as itself**, without the space before it, or is a literal
with a line feed in its spelling, which is left open at the end of its line. -/
theorem Reachable.lex_text_of_mem {table : MacroTable} (h : table.Reachable) {limits : Limits}
    {text : String} {e : Expansion} (he : table.expand limits text = .ok e) :
    ∀ t ∈ e.tokens, Token.lex t.text = .ok [{ t with spaced := false }] ∨
      (t.kind = .literal ∧ '\n' ∈ t.text.toList ∧
        Token.lex t.text = .error (.unterminated .literal 0)) := by
  have hgenuine : ∀ t ∈ e.tokens, t.word.IsGenuine := by
    refine h.filed.keeps_isGenuine.expand (fun tokens hlex t ht => .inl ?_) he
    exact (Token.lex_eq_ok_iff.1 hlex).isLexeme_of_mem t ht
  exact fun t ht => (hgenuine t ht).imp_left Token.lex_of_isLexeme

/-- A name that `##` makes, a literal that `#` makes, and one that a line feed breaks. -/
theorem lex_text_of_mem_stringized :
    ∃ table : MacroTable, table.Reachable ∧ ∃ e, table.expand {} "J(x,1) S('a') S('\\\n')" = .ok e ∧
      e.tokens = [.name "x1", ⟨.literal, "\"'a'\"", true⟩, ⟨.literal, "\"'\\\\\n'\"", true⟩] ∧
      (∀ t ∈ e.tokens, Token.lex t.text = .ok [{ t with spaced := false }] ∨
        (t.kind = .literal ∧ '\n' ∈ t.text.toList ∧
          Token.lex t.text = .error (.unterminated .literal 0))) ∧
      Token.lex "\"'\\\\\n'\"" = .error (.unterminated .literal 0) := by
  have hjoin : Definition.ofCommandLine "J(a,b)=a##b" =
      .ok ⟨"J", some ["a", "b"], false, [.name "a", .mark "##", .name "b"]⟩ := by cbv
  have hquote : Definition.ofCommandLine "S(x)=#x" =
      .ok ⟨"S", some ["x"], false, [.mark "#", .name "x"]⟩ := by cbv
  have hreachable := (Reachable.empty.define_read hjoin).define_read hquote
  have he : ((MacroTable.empty.define
      ⟨"J", some ["a", "b"], false, [.name "a", .mark "##", .name "b"]⟩).define
      ⟨"S", some ["x"], false, [.mark "#", .name "x"]⟩).expand {} "J(x,1) S('a') S('\\\n')" =
      .ok ⟨[.name "x1", ⟨.literal, "\"'a'\"", true⟩, ⟨.literal, "\"'\\\\\n'\"", true⟩], 3⟩ := by
    cbv
  exact ⟨_, hreachable, _, he, rfl, hreachable.lex_text_of_mem he, by cbv⟩

end MacroTable

end VariadicMacros
