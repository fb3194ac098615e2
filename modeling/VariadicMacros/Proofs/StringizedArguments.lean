/-
**The spelling of an argument as a literal.**

A call is read as a name, parentheses, and the tokens of what stands between them, because a
parenthesis goes on with no lexeme before it.  A macro that has nothing but `#` and a parameter in
its replacement list makes one literal of the argument, without expanding it, and the literal
invokes nothing.

When the escapes between its quotes are undone, the literal gives the spelling of the argument,
whatever the argument is.  The literal is read as itself exactly when there is no line feed in this
spelling.

Main definitions:

* `VariadicMacros.Definition.IsQuoting` — the replacement list is `#` and a parameter;
* `VariadicMacros.Definition.Delivers`, `VariadicMacros.Definition.Receives` — what stands between
  the parentheses becomes an argument, with other spaces or as it is.

Main results:

* `VariadicMacros.Token.exists_lex_call` — how the text of a call is read;
* `VariadicMacros.Scan.run_isQuoting` — a call of such a macro comes to one literal;
* `VariadicMacros.MacroTable.exists_expand_stringized` — **the literal of an argument gives its
  spelling**, and when it is read as itself.
-/

import VariadicMacros.Proofs.RaisedLimits
import VariadicMacros.Proofs.ReachableTables
import VariadicMacros.Proofs.Stringizing

set_option autoImplicit false

namespace VariadicMacros

open Text
open Lexeme (isLexeme endsBefore)

/-! ### Reading a call -/

/-- **The text of a call** is read as the name, the parentheses, and the tokens between them. -/
theorem Token.exists_lex_call {f argument : String} (hf : isIdentifier f.toList = true)
    {ts : List Token} (h : lex argument = .ok ts) :
    ∃ close : Token, close.word = .mark ")" ∧
      lex (f ++ "(" ++ argument ++ ")") = .ok (name f :: mark "(" :: (ts ++ [close])) := by
  have hname : isLexeme .identifier f.toList = true := hf
  have hopen : ∀ rest, isLexeme .punctuator "(".toList = true ∧
      endsBefore .punctuator "(".toList rest = true := endsBefore_solid (by decide)
  have hclose : isLexeme .punctuator ")".toList = true ∧
      endsBefore .punctuator ")".toList [] = true := endsBefore_solid (by decide) []
  have hnumber : ∀ previous, isNumberChar previous ')' = false := fun _ => rfl
  obtain ⟨spaced, hlex⟩ := (lex_eq_ok_iff.1 h).exists_lexFrom_append hnumber (by decide)
  refine ⟨⟨.punctuator, ")", spaced⟩, rfl, ?_⟩
  have htext : (f ++ "(" ++ argument ++ ")").toList =
      f.toList ++ ("(".toList ++ (argument.toList ++ [')'])) := by
    simp
  rw [lex, lexChars, htext, lexFrom_of_isLexeme hname rfl,
    lexFrom_of_isLexeme (hopen []).1 (hopen _).2, hlex]
  refine (lexFrom_of_isLexeme hclose.1 hclose.2 _ _ _).trans ?_
  rw [lexFrom_nil]
  simp [name, mark]

/-- One argument is read up to the parenthesis that closes the call. -/
theorem Invocation.readArguments_singleton {ts : List Token}
    (h : Word.IsArgument (ts.map Token.word)) {close : Token} (hclose : close.word = .mark ")") :
    readArguments ((ts ++ [close]).map Painted.plain) =
      some ⟨[ts.map Painted.plain], .plain close, []⟩ := by
  have hmark : ∀ text, (Painted.plain close).isMark text = decide (Word.mark ")" = .mark text) := by
    intro text
    rw [Painted.isMark_eq, Painted.word, Painted.toToken_plain, hclose]
  rw [readArguments, List.map_append, readFrom_append (Painted.Shows.plain ts) h,
    List.map_singleton, readFrom, hmark, hmark, if_neg (by decide), if_pos (by decide)]
  simp

/-! ### Macros that quote -/

/-- The macro is called with arguments, and its replacement list is `#` and its parameter at
position `i`. -/
structure Definition.IsQuoting (d : Definition) (i : Nat) : Prop where
  isFunctionLike : d.isFunctionLike = true
  exists_body : ∃ t u, d.body = [t, u] ∧ t.isMark "#" = true ∧ d.parameterIndex? u = some i

/-- The replacement of a call is the literal of the argument, and no argument is expanded. -/
theorem Definition.IsQuoting.exists_replacement {d : Definition} {i : Nat} (h : d.IsQuoting i)
    (actuals : List (List Painted)) (expandArgument : Substitution.ExpandArgument)
    (hidden : HideSet) (steps : Nat) :
    ∃ spaced, d.replacement actuals expandArgument hidden steps =
      .ok ([(Substitution.stringize (actuals.getD i []) spaced).hide hidden], steps) := by
  obtain ⟨t, u, hbody, ht, hu⟩ := h.exists_body
  refine ⟨t.spaced, ?_⟩
  rw [replacement, hbody, Substitution.fill, ht, h.isFunctionLike, hu]
  rfl

/-- **A call of a macro that quotes** comes to one literal. -/
theorem Scan.run_isQuoting {table : MacroTable} {d : Definition} (hd : table[d.name]? = some d)
    {i : Nat} (hquoting : d.IsQuoting i) {after : List Painted}
    {arguments actuals : List (List Painted)} {close : Painted}
    (hread : Invocation.readArguments after = some ⟨arguments, close, []⟩)
    (hbind : d.bind arguments = .ok actuals) {limits : Limits}
    (hsteps : 0 < limits.steps) (supply level : Nat) :
    ∃ hidden, run table limits (supply + 1) level 0 []
        (.plain (.name d.name) :: .plain (.mark "(") :: after) =
      .ok ([(Substitution.stringize (actuals.getD i []) false).hide hidden], 1) := by
  have hadvance : advance table [] (.plain (.name d.name) :: .plain (.mark "(") :: after) =
      ([], .call ⟨.plain (.name d.name), d, arguments, [d.name], []⟩) :=
    advance_call hd hquoting.isFunctionLike rfl (by simp) rfl hread []
  obtain ⟨spaced, hreplacement⟩ := hquoting.exists_replacement actuals
    (scanArgument table limits supply level) [d.name] 1
  -- What is left is a literal, which names no macro.
  have hliteral : table.Ignores
      ([(Substitution.stringize (actuals.getD i []) false).hide [d.name]].map Painted.word) := by
    intro w hw hkind
    rw [List.mem_singleton.1 hw] at hkind
    cases hkind
  refine ⟨[d.name], ?_⟩
  rw [run_of_call_eq_bind hadvance hsteps]
  simp only [hbind, hreplacement, Except.bind, Nat.zero_add, List.append_nil]
  exact run_of_ignores hliteral

/-- The tokens between the parentheses of a call become the argument at position `i`, with the
spaces of `us`. -/
def Definition.Delivers (d : Definition) (i : Nat) (ts us : List Token) : Prop :=
  us.map Token.word = ts.map Token.word ∧
    ∀ close : Token, close.word = .mark ")" → ∃ arguments actuals,
      Invocation.readArguments ((ts ++ [close]).map Painted.plain) =
          some ⟨arguments, .plain close, []⟩ ∧
        d.bind arguments = .ok actuals ∧ (actuals.getD i []).map Painted.toToken = us

/-- The tokens between the parentheses of a call become the argument at position `i`. -/
def Definition.Receives (d : Definition) (i : Nat) (ts : List Token) : Prop := d.Delivers i ts ts

/-- A macro with one parameter receives what has no comma outside of parentheses. -/
theorem Definition.receives_of_isArgument {d : Definition} {x : String}
    (hparameters : d.parameters = some [x]) (hvariadic : d.variadic = false) {ts : List Token}
    (h : Word.IsArgument (ts.map Token.word)) : d.Receives 0 ts := by
  refine ⟨rfl, fun close hclose => ?_⟩
  refine ⟨_, [ts.map Painted.plain], Invocation.readArguments_singleton h hclose, ?_, ?_⟩
  · simp [bind, hparameters, hvariadic, suits, demand, ArgumentDemand.accepts]
  · simp [Function.comp_def]

namespace MacroTable

/-- **The literal of what a macro that quotes receives** gives its spelling. -/
theorem exists_expand_isQuoting {table : MacroTable} {d : Definition}
    (hd : table[d.name]? = some d) (hname : isIdentifier d.name.toList = true) {i : Nat}
    (hquoting : d.IsQuoting i) {limits : Limits} (hsteps : 0 < limits.steps) {argument : String}
    {ts us : List Token} (hlex : Token.lex argument = .ok ts) (hdelivers : d.Delivers i ts us) :
    ∃ q inner, table.expand limits (d.name ++ "(" ++ argument ++ ")") = .ok ⟨[q], 1⟩ ∧
      q.kind = .literal ∧ q.text.toList = '"' :: (inner ++ ['"']) ∧
      Lexeme.unescape inner = (Token.spell us).toList ∧
      Token.lex q.text = if '\n' ∈ (Token.spell us).toList
        then .error (.unterminated .literal 0) else .ok [q] := by
  obtain ⟨close, hclose, hcall⟩ := Token.exists_lex_call hname hlex
  obtain ⟨hwords, hdelivered⟩ := hdelivers
  obtain ⟨arguments, actuals, hread, hbind, hactual⟩ := hdelivered close hclose
  obtain ⟨supply, hsupply⟩ := Nat.exists_eq_succ_of_ne_zero (Nat.ne_of_gt hsteps)
  obtain ⟨hidden, hrun⟩ := Scan.run_isQuoting hd hquoting hread hbind hsteps supply 0
  have hspellable : Substitution.Spellable ((actuals.getD i []).map Painted.toToken) := by
    rw [hactual]
    intro u hu _
    obtain ⟨t, ht, hword⟩ := List.mem_map.1 (hwords ▸ List.mem_map_of_mem (f := Token.word) hu)
    have hlexeme := (Token.lex_eq_ok_iff.1 hlex).isLexeme_of_mem t ht
    rwa [show t.kind = u.kind from congrArg Word.kind hword,
      show t.text = u.text from congrArg Word.text hword] at hlexeme
  obtain ⟨inner, htext, hquotes⟩ := Substitution.exists_quotes_stringize hspellable false
  have hread := Substitution.lex_stringize hspellable false
  rw [hactual] at hquotes hread
  refine ⟨(Substitution.stringize (actuals.getD i []) false).toToken, inner, ?_, rfl, htext,
    hquotes.unescape_eq, hread⟩
  rw [expand_of_lex hcall, expandTokens_eq_map, List.map_cons, List.map_cons, hsupply, hrun]
  rfl

/-- **`#` makes one literal of an argument**, and undoing the escapes between its quotes gives the
spelling of the argument.  The literal is read as itself if there is no line feed in this spelling,
and is open at the end of its line otherwise. -/
theorem exists_expand_stringized {table : MacroTable} {f x : String}
    (hd : table[f]? = some ⟨f, some [x], false, [.mark "#", .name x]⟩)
    (hf : isIdentifier f.toList = true) {limits : Limits} (hsteps : 0 < limits.steps)
    {argument : String} {ts : List Token} (hlex : Token.lex argument = .ok ts)
    (hts : Word.IsArgument (ts.map Token.word)) :
    ∃ q inner, table.expand limits (f ++ "(" ++ argument ++ ")") = .ok ⟨[q], 1⟩ ∧
      q.kind = .literal ∧ q.text.toList = '"' :: (inner ++ ['"']) ∧
      Lexeme.unescape inner = (Token.spell ts).toList ∧
      Token.lex q.text = if '\n' ∈ (Token.spell ts).toList
        then .error (.unterminated .literal 0) else .ok [q] := by
  obtain ⟨d, hdef⟩ : ∃ d : Definition, d = ⟨f, some [x], false, [.mark "#", .name x]⟩ := ⟨_, rfl⟩
  have hname : d.name = f := by rw [hdef]
  have hquoting : d.IsQuoting 0 := by
    subst hdef
    exact ⟨rfl, .mark "#", .name x, rfl, rfl, by simp [Definition.parameterIndex?, Token.name]⟩
  have hreceives : d.Receives 0 ts :=
    Definition.receives_of_isArgument (by rw [hdef]) (by rw [hdef]) hts
  rw [← hdef, ← hname] at hd
  rw [← hname] at hf ⊢
  exact exists_expand_isQuoting hd hf hquoting hsteps hlex hreceives

/-- Parentheses, a comma inside of them, a quote and a backslash. -/
theorem exists_expand_stringized_nested :
    ∃ table : MacroTable, table.Reachable ∧ ∃ q inner,
      table.expand {} "STR( (\"a\",\t'\\\\') )" = .ok ⟨[q], 1⟩ ∧ q.kind = .literal ∧
      q.text.toList = '"' :: (inner ++ ['"']) ∧
      Lexeme.unescape inner = "(\"a\", '\\\\')".toList ∧ Token.lex q.text = .ok [q] := by
  have hd : Definition.ofCommandLine "STR(x)=#x" =
      .ok ⟨"STR", some ["x"], false, [.mark "#", .name "x"]⟩ := by cbv
  obtain ⟨ts, hts⟩ : ∃ ts : List Token, ts = [(Token.mark "(").afterSpace,
    ⟨.literal, "\"a\"", false⟩, .mark ",", ⟨.literal, "'\\\\'", true⟩, .mark ")"] := ⟨_, rfl⟩
  have hlex : Token.lex " (\"a\",\t'\\\\') " = .ok ts := by
    subst hts
    cbv
  have hargument : Word.IsArgument (ts.map Token.word) := by
    subst hts
    decide
  have hspell : Token.spell ts = "(\"a\", '\\\\')" := by
    subst hts
    cbv
  have htable : (MacroTable.empty.define
      ⟨"STR", some ["x"], false, [.mark "#", .name "x"]⟩)["STR"]? =
      some ⟨"STR", some ["x"], false, [.mark "#", .name "x"]⟩ := by
    rw [getElem?_define, if_pos rfl]
  have hcall : "STR" ++ "(" ++ " (\"a\",\t'\\\\') " ++ ")" = "STR( (\"a\",\t'\\\\') )" := by cbv
  have hsteps : 0 < Limits.steps {} := by decide
  obtain ⟨q, inner, he, hkind, htext, hinner, hread⟩ :=
    exists_expand_stringized htable (by decide) hsteps hlex hargument
  rw [hcall] at he
  rw [hspell] at hinner hread
  rw [if_neg (by decide)] at hread
  exact ⟨_, Reachable.empty.define_read hd, q, inner, he, hkind, htext, hinner, hread⟩

/-- A line feed that a backslash takes along in a literal breaks the literal that `#` makes. -/
theorem not_lex_expand_stringized :
    ∃ table : MacroTable, table.Reachable ∧
      table["STR"]? = some ⟨"STR", some ["x"], false, [.mark "#", .name "x"]⟩ ∧
      ∃ ts, Token.lex "'\\\n'" = .ok ts ∧ Word.IsArgument (ts.map Token.word) ∧
        ∃ q, table.expand {} ("STR(" ++ "'\\\n'" ++ ")") = .ok ⟨[q], 1⟩ ∧
          Token.lex q.text = .error (.unterminated .literal 0) := by
  have hd : Definition.ofCommandLine "STR(x)=#x" =
      .ok ⟨"STR", some ["x"], false, [.mark "#", .name "x"]⟩ := by cbv
  refine ⟨_, Reachable.empty.define_read hd, by rw [getElem?_define, if_pos rfl],
    [⟨.literal, "'\\\n'", false⟩], by cbv, by decide, ⟨.literal, "\"'\\\\\n'\"", false⟩, ?_, ?_⟩
  · cbv
  · cbv

end MacroTable

end VariadicMacros
