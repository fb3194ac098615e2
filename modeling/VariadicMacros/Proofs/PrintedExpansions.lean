/-
**When the text of an expansion denotes it.**

Every token of an expansion is a lexeme, but for literals that hold a line feed.  So a printed
expansion is read back as its tokens unless there is such a literal, or two tokens merge, or three
points in a row.  Nothing keeps tokens apart that come to touch in an expansion, as those of an
argument and of the text after the call.

Main definitions:

* `VariadicMacros.Word.IsFormed` — a lexeme, or a literal that holds a line feed;
* `VariadicMacros.Expansion.IsReadFrom` — a text is read as the tokens of an expansion.

Main results:

* `VariadicMacros.MacroTable.Filed.keeps_isFormed` — expansion keeps words formed;
* `VariadicMacros.MacroTable.Reachable.isReadFrom_text_iff` — **when the text of an expansion is
  read as the expansion**.
-/

import VariadicMacros.Proofs.GenuineTokens

set_option autoImplicit false

namespace VariadicMacros

open Text

open Lexeme (isLexeme)

/-! ### Formed words -/

/-- A word that is a lexeme, or a literal that holds a line feed. -/
def Word.IsFormed (w : Word) : Prop :=
  isLexeme w.kind w.text.toList = true ∨ (w.kind = .literal ∧ '\n' ∈ w.text.toList)

theorem Word.IsGenuine.isFormed {w : Word} (h : w.IsGenuine) : w.IsFormed :=
  h.imp_right fun hbroken => ⟨hbroken.1, hbroken.2.1⟩

/-- **Expansion keeps words formed.** -/
theorem MacroTable.Filed.keeps_isFormed {table : MacroTable} (h : table.Filed) :
    table.Keeps Word.IsFormed :=
  h.keeps Word.IsGenuine.isFormed fun hw hkind => hw.resolve_right fun hliteral => hkind hliteral.1

namespace Expansion

/-! ### Expansions that are read back -/

/-- A text is read as the tokens of an expansion, spaces aside. -/
def IsReadFrom (e : Expansion) (text : String) : Prop :=
  ∃ tokens, Token.lex text = .ok tokens ∧ tokens.map Token.word = e.words

/-- A line feed after a text is not read. -/
theorem IsReadFrom.append_newline {e : Expansion} {text : String} (h : e.IsReadFrom text) :
    e.IsReadFrom (text ++ "\n") := by
  obtain ⟨tokens, hlex, hwords⟩ := h
  refine ⟨tokens, ?_, hwords⟩
  rw [Token.lex_eq_ok_iff] at hlex ⊢
  have hread := hlex.append_blank (b := '\n') (by decide) (.nil true)
  rwa [List.append_nil, ← String.toList_singleton, ← String.toList_append] at hread

/-- Formed words that have the spellings of lexemes are these lexemes. -/
theorem words_eq_of_texts_eq {ts us : List Token}
    (hus : ∀ u ∈ us, isLexeme u.kind u.text.toList = true) (hts : ∀ t ∈ ts, t.word.IsFormed)
    (h : us.map Token.text = ts.map Token.text) : us.map Token.word = ts.map Token.word := by
  refine Token.map_eq_map_of_map_eq_map h fun u hu t ht htext => ?_
  have hkind : u.kind = t.kind := by
    rcases hts t ht with hlexeme | ⟨hliteral, hline⟩
    · refine Lexeme.kind_eq_of_isLexeme (hus u hu) ?_
      rw [htext]
      exact hlexeme
    · by_contra hne
      have hk : u.kind ≠ .literal := fun hk => hne (hk.trans hliteral.symm)
      have hspecial :=
        Lexeme.isSpecial_eq_false_of_isLexeme (hus u hu) hk '\n' (htext.symm ▸ hline)
      cases hspecial
  rw [Token.word, Token.word, hkind, htext]

/-- An expansion of formed words agrees with a text exactly when it is read from it. -/
theorem agreesWith_iff {e : Expansion} (h : ∀ t ∈ e.tokens, t.word.IsFormed) {text : String} :
    e.agreesWith text = true ↔ e.IsReadFrom text := by
  unfold agreesWith IsReadFrom
  cases hlex : Token.lex text with
  | error fault => simp
  | ok tokens =>
      have hlexemes := (Token.lex_eq_ok_iff.1 hlex).isLexeme_of_mem
      simp only [beq_iff_eq, Except.ok.injEq, exists_eq_left']
      constructor
      · exact words_eq_of_texts_eq hlexemes h
      · intro hwords
        have htexts := congrArg (List.map Word.text) hwords
        rw [words, List.map_map, List.map_map] at htexts
        exact htexts

end Expansion

namespace MacroTable

/-- **When the text of an expansion is read as the expansion.**  Every token is read back when it is
printed alone, a literal that holds a line feed excepted.  The whole text is read back exactly when
every token and every two neighbours are, and no three tokens begin with an ellipsis; the expansion
agrees with its text in the same cases, and is then also read from the text with a line feed after
it. -/
theorem Reachable.isReadFrom_text_iff {table : MacroTable} (h : table.Reachable) {limits : Limits}
    {text : String} {e : Expansion} (he : table.expand limits text = .ok e) :
    (∀ t ∈ e.tokens, Token.ReadsBack [t] ∨ (t.kind = .literal ∧ '\n' ∈ t.text.toList)) ∧
      (e.IsReadFrom e.text ↔ (∀ t ∈ e.tokens, Token.ReadsBack [t]) ∧
        (∀ t u, [t, u] <:+: e.tokens → Token.ReadsBack [t, u]) ∧
        ∀ t u v, [t, u, v] <:+: e.tokens → ¬ Token.BeginsEllipsis t u v) ∧
      (e.agreesWith e.text = true ↔ e.IsReadFrom e.text) ∧
      (e.IsReadFrom e.text → e.IsReadFrom (e.text ++ "\n")) := by
  have hformed : ∀ t ∈ e.tokens, t.word.IsFormed := by
    refine h.filed.keeps_isFormed.expand (fun tokens hlex t ht => .inl ?_) he
    exact (Token.lex_eq_ok_iff.1 hlex).isLexeme_of_mem t ht
  refine ⟨fun t ht => ?_, Token.readsBack_iff, Expansion.agreesWith_iff hformed,
    Expansion.IsReadFrom.append_newline⟩
  exact (hformed t ht).imp_left Token.readsBack_singleton_iff.2

/-- A name of an argument that comes to stand before a semicolon. -/
theorem isReadFrom_text_semicolon :
    ∃ table : MacroTable, table.Reachable ∧ ∃ e, table.expand {} "F(a);" = .ok e ∧
      e.text = "a;" ∧ e.agreesWith "a;" = true ∧ e.IsReadFrom "a;\n" := by
  have hd : Definition.ofCommandLine "F(x)=x" = .ok ⟨"F", some ["x"], false, [.name "x"]⟩ := by cbv
  have hreachable := Reachable.empty.define_read hd
  have he : (MacroTable.empty.define ⟨"F", some ["x"], false, [.name "x"]⟩).expand {} "F(a);" =
      .ok ⟨[.name "a", .mark ";"], 1⟩ := by cbv
  have htext : Expansion.text ⟨[.name "a", .mark ";"], 1⟩ = "a;" := by decide
  have hagrees : Expansion.agreesWith ⟨[.name "a", .mark ";"], 1⟩ "a;" = true := by cbv
  obtain ⟨-, -, hiff, hprinted⟩ := hreachable.isReadFrom_text_iff he
  rw [htext] at hiff hprinted
  exact ⟨_, hreachable, _, he, htext, hagrees, hprinted (hiff.1 hagrees)⟩

/-- A name of an argument that merges with the name after the call, and a literal with a line feed
that `#` breaks. -/
theorem not_isReadFrom_text :
    (∃ table : MacroTable, table.Reachable ∧ ∃ e, table.expand {} "F(a)b" = .ok e ∧
      e.tokens = [.name "a", .name "b"] ∧ e.text = "ab" ∧ ¬ e.IsReadFrom e.text ∧
      e.agreesWith e.text = false) ∧
    ∃ table : MacroTable, table.Reachable ∧ ∃ e, table.expand {} "S('\\\n')" = .ok e ∧
      Token.lex e.text = .error (.unterminated .literal 0) ∧ e.agreesWith e.text = false := by
  refine ⟨?merged, ?broken⟩
  case merged =>
    have hd : Definition.ofCommandLine "F(x)=x" = .ok ⟨"F", some ["x"], false, [.name "x"]⟩ := by
      cbv
    have htext : Expansion.text ⟨[.name "a", .name "b"], 1⟩ = "ab" := by decide
    have hlex : Token.lex "ab" = .ok [.name "ab"] := by cbv
    refine ⟨_, Reachable.empty.define_read hd, ⟨[.name "a", .name "b"], 1⟩, by cbv, rfl, htext,
      ?_, ?_⟩
    · rw [htext]
      rintro ⟨tokens, htokens, hwords⟩
      rw [hlex] at htokens
      cases htokens
      exact absurd (congrArg List.length hwords) (by decide)
    · rw [htext, Expansion.agreesWith, hlex]
      decide
  case broken =>
    have hd : Definition.ofCommandLine "S(x)=#x" =
        .ok ⟨"S", some ["x"], false, [.mark "#", .name "x"]⟩ := by cbv
    have hlex : Token.lex (Expansion.text ⟨[⟨.literal, "\"'\\\\\n'\"", false⟩], 1⟩) =
        .error (.unterminated .literal 0) := by cbv
    refine ⟨_, Reachable.empty.define_read hd, ⟨[⟨.literal, "\"'\\\\\n'\"", false⟩], 1⟩, by cbv,
      hlex, ?_⟩
    rw [Expansion.agreesWith, hlex]

end MacroTable

end VariadicMacros
