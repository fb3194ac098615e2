/-
**The errors of an expansion tell the truth.**

An expansion of a text that can be read fails for one of five reasons, and each error says what is
the case: the limits that it names are the ones that were given, the macro that it names is one of
the table and takes arguments, the number of arguments that it reports is one that the parameter
list of the macro refuses, and the spellings that it says do not join are not one token.  The reason
may come up in an argument of an argument, or in a replacement list; it is handed on unchanged.

Main definitions:

* `VariadicMacros.MacroTable.Explains` — an error says what is the case in a table;
* `VariadicMacros.MacroTable.Explained` — a result whose error does.

Main results:

* `VariadicMacros.Substitution.explained_fill` — a walk over a replacement list only hands on what
  gluing and the expansion of arguments report;
* `VariadicMacros.Scan.stopAt?_of_advance` — a scan stops at a name of a macro;
* `VariadicMacros.Scan.explained_run` — **every error of a scan says what is the case**;
* `VariadicMacros.MacroTable.Reachable.explains_of_expand` — and so does every error of an
  expansion, where it is not the one for which the text cannot be read.
-/

import VariadicMacros.Proofs.Burden
import VariadicMacros.Proofs.LexicalErrors
import VariadicMacros.Proofs.WrittenCalls

set_option autoImplicit false

namespace VariadicMacros

namespace MacroTable

/-! ### What an error says -/

/-- What is the case in a table and under some limits when an expansion reports an error. -/
inductive Explains (table : MacroTable) (limits : Limits) : MacroError → Prop
  | stepLimit : Explains table limits (.stepLimit limits.steps)
  | depthLimit : Explains table limits (.depthLimit limits.depth)
  | unterminatedInvocation {name : String} {d : Definition} (hd : table[name]? = some d)
      (hfunction : d.isFunctionLike = true) : Explains table limits (.unterminatedInvocation name)
  | argumentCount {name : String} {d : Definition} {names : List String} {demand : ArgumentDemand}
      {found : Nat} (hd : table[name]? = some d) (hnames : d.parameters = some names)
      (hfound : if d.variadic then found < names.length else found ≠ names.length)
      (htext : demand.text =
        if d.variadic then "at least " ++ toString names.length else toString names.length) :
      Explains table limits (.argumentCount name demand found)
  | invalidPaste {left right : String} (h : ∀ t, Token.lex (left ++ right) ≠ .ok [t]) :
      Explains table limits (.invalidPaste left right)

/-- A result whose error, if it is one, says what is the case. -/
def Explained {α : Type} (table : MacroTable) (limits : Limits) (r : Except MacroError α) : Prop :=
  ∀ e, r = .error e → table.Explains limits e

namespace Explained

variable {α β : Type} {table : MacroTable} {limits : Limits} {r : Except MacroError α}

theorem of_ok (a : α) : table.Explained limits (.ok a) := by
  intro e h
  cases h

theorem of_error {e : MacroError} (h : table.Explains limits e) :
    table.Explained limits (.error e : Except MacroError α) := by
  rintro _ ⟨⟩
  exact h

theorem map (h : table.Explained limits r) (f : α → β) : table.Explained limits (r.map f) := by
  cases r with
  | ok a => exact of_ok (f a)
  | error e => exact of_error (h e rfl)

theorem bind (h : table.Explained limits r) {next : α → Except MacroError β}
    (hnext : ∀ a, r = .ok a → table.Explained limits (next a)) :
    table.Explained limits (r.bind next) := by
  cases r with
  | ok a => exact hnext a rfl
  | error e => exact of_error (h e rfl)

end Explained

end MacroTable

open MacroTable (Explains Explained)

/-! ### Replacement lists -/

namespace Substitution

variable {table : MacroTable} {limits : Limits}

/-- What is not glued is not one token. -/
theorem explained_paste (out right : List Painted) : table.Explained limits (paste out right) := by
  cases right with
  | nil => exact .of_ok out
  | cons r right =>
      cases out with
      | nil => exact .of_ok _
      | cons l out =>
          rw [paste]
          cases hjoin : join? l r with
          | some glued => exact .of_ok _
          | none =>
              refine .of_error (.invalidPaste fun t hlex => ?_)
              rw [join?, Token.ofText?, hlex] at hjoin
              cases hjoin

section Walks

variable {d : Definition} {actuals : List (List Painted)} {expandArgument : ExpandArgument}
  (hexpand : ∀ argument steps, table.Explained limits (expandArgument argument steps))

include hexpand

theorem explained_carryOut (m : Move) (w : Walk) :
    table.Explained limits (m.carryOut actuals expandArgument w) := by
  cases m with
  | put tokens => exact .of_ok _
  | glue right => exact (explained_paste w.out right).map _
  | expand i spaced =>
      refine Explained.map ?_ _
      cases hi : w.expanded.lookup i with
      | some tokens =>
          rw [Walk.expansion, hi]
          exact .of_ok _
      | none =>
          rw [expansion_eq_map hi]
          exact (hexpand _ _).map _

/-- A walk over a replacement list only hands on what its moves report. -/
theorem explained_fill (body : List Token) (w : Walk) :
    table.Explained limits (fill d actuals expandArgument body w) := by
  refine walk_induction d actuals expandArgument
    (motive := fun body w => table.Explained limits (fill d actuals expandArgument body w))
    ?nil ?cons body w
  case nil =>
    intro w
    rw [fill_nil]
    exact .of_ok w
  case cons =>
    intro t rest w ih
    rw [fill_eq_bind]
    exact (explained_carryOut hexpand _ w).bind ih

theorem explained_replacement (hidden : HideSet) (steps : Nat) :
    table.Explained limits (d.replacement actuals expandArgument hidden steps) := by
  rw [replacement_eq_map]
  exact (explained_fill hexpand d.body _).map _

end Walks

end Substitution

/-! ### Arguments -/

/-- Arguments that do not suit a macro are not of a number that its parameter list accepts. -/
theorem Definition.refuses_of_suits {d : Definition} {names : List String}
    (hnames : d.parameters = some names) {arguments : List (List Painted)} (hne : arguments ≠ [])
    (h : d.suits arguments = false) :
    if d.variadic then arguments.length < names.length else arguments.length ≠ names.length := by
  have hpos := List.length_pos_iff.2 hne
  rw [suits, demand, hnames, Option.getD_some] at h
  cases hvariadic : d.variadic with
  | true => simpa [hvariadic, ArgumentDemand.accepts] using h
  | false =>
      by_cases hzero : names.length = 0
      · rw [hzero]
        simpa using hne
      · simpa [hvariadic, hzero, ArgumentDemand.accepts] using h

/-- Arguments that are refused are counted, and their number is refused. -/
theorem Definition.explained_bind {table : MacroTable} {limits : Limits} {d : Definition}
    (hd : table[d.name]? = some d) {arguments : List (List Painted)}
    (hne : d.isFunctionLike = true → arguments ≠ []) :
    table.Explained limits (d.bind arguments) := by
  unfold bind
  cases hnames : d.parameters with
  | none => exact .of_ok []
  | some names =>
      simp only
      split
      · split
        · exact .of_ok _
        · split <;> exact .of_ok _
      · next hsuits =>
        have hfunction : d.isFunctionLike = true := by rw [isFunctionLike, hnames]; rfl
        refine .of_error (.argumentCount hd hnames
          (refuses_of_suits hnames (hne hfunction) (Bool.eq_false_iff.2 hsuits)) ?_)
        rw [demand, hnames]
        cases d.variadic <;> rfl

namespace Invocation

/-- A call has at least one argument, which may be empty. -/
theorem arguments_ne_nil_of_readArguments {text : List Painted} {list : ArgumentList}
    (h : readArguments text = some list) : list.arguments ≠ [] := by
  obtain ⟨inside, hwrites, -⟩ := readArguments_eq_some_iff.1 h
  generalize list.arguments = arguments at hwrites
  cases hwrites <;> exact List.cons_ne_nil _ _

end Invocation

/-! ### Scans -/

namespace Scan

variable {table : MacroTable}

/-- A scan that does not get to the end of its text stops at one of its tokens. -/
theorem stopAt?_of_advance {out out' text : List Painted} {stop : Stop}
    (h : advance table out text = (out', stop)) :
    stop = .finished ∨ ∃ p rest, stopAt? table p rest = some stop := by
  induction text generalizing out with
  | nil =>
      cases h
      exact .inl rfl
  | cons p rest ih =>
      rw [advance_cons] at h
      cases hstop : stopAt? table p rest with
      | none =>
          rw [hstop] at h
          exact ih h
      | some stop' =>
          rw [hstop] at h
          cases h
          exact .inr ⟨p, rest, hstop⟩

/-- A scan stops at the name of a macro: of a function-like one, whose arguments it finds if they
have an end, or of an object-like one. -/
theorem named_of_stopAt? (hfiled : table.Filed) {p : Painted} {rest : List Painted} {stop : Stop}
    (h : stopAt? table p rest = some stop) :
    ∃ d : Definition, table[d.name]? = some d ∧
      ((stop = .unterminated d ∧ d.isFunctionLike = true) ∨
        ∃ c : Call, stop = .call c ∧ c.definition = d ∧
          (d.isFunctionLike = true → c.arguments ≠ [])) := by
  unfold stopAt? at h
  cases hd : definition? table p with
  | none =>
      rw [hd] at h
      cases h
  | some d =>
      have hname : table[d.name]? = some d := by
        obtain ⟨-, -, hentry⟩ := exists_of_definition? hd
        rwa [(hfiled _ _ hentry).1]
      refine ⟨d, hname, ?_⟩
      rw [hd] at h
      simp only at h
      split at h
      · next hfunction =>
        cases rest with
        | nil => cases h
        | cons next after =>
            simp only at h
            split at h
            · cases hread : Invocation.readArguments after with
              | none =>
                  rw [hread] at h
                  cases h
                  exact .inl ⟨rfl, hfunction⟩
              | some list =>
                  rw [hread] at h
                  cases h
                  exact .inr ⟨_, rfl, rfl, fun _ =>
                    Invocation.arguments_ne_nil_of_readArguments hread⟩
            · cases h
      · next hobject =>
        cases h
        exact .inr ⟨_, rfl, rfl, fun hfunction => absurd hfunction hobject⟩

/-- **Every error of a scan says what is the case**, whatever argument of whatever call it comes
up in. -/
theorem explained_run (hfiled : table.Filed) {limits : Limits} (supply level steps : Nat)
    (out text : List Painted) :
    table.Explained limits (run table limits supply level steps out text) := by
  -- Arguments are scanned, and what is left of the text, with a smaller supply.
  induction supply using Nat.strongRecOn generalizing level steps out text with
  | _ supply ih =>
      rcases hadvance : advance table out text with ⟨out', stop⟩
      rcases stopAt?_of_advance hadvance with rfl | ⟨p, rest, hstop⟩
      · rw [run_of_finished hadvance]
        exact .of_ok _
      obtain ⟨d, hd, ⟨rfl, hfunction⟩ | ⟨c, rfl, rfl, hne⟩⟩ := named_of_stopAt? hfiled hstop
      · rw [run_of_unterminated hadvance]
        exact .of_error (.unterminatedInvocation hd hfunction)
      by_cases hroom : steps < limits.steps ∧ 0 < supply
      · obtain ⟨hsteps, hsupply⟩ := hroom
        obtain ⟨supply, rfl⟩ := Nat.exists_eq_add_of_le' hsupply
        rw [run_of_call_eq_bind hadvance hsteps]
        refine (Definition.explained_bind hd hne).bind fun actuals _ => ?_
        refine (Substitution.explained_replacement (fun argument steps => ?_) _ _).bind
          fun r _ => ?_
        · unfold scanArgument
          split
          · exact .of_error .depthLimit
          · exact ih supply (Nat.lt_succ_self _) _ _ _ _
        · exact ih supply (Nat.lt_succ_self _) _ _ _ _
      · rw [run_of_no_room hadvance hroom]
        exact .of_error .stepLimit

end Scan

/-! ### Expansions -/

/-- A text that cannot be read has a literal without an end or a character that begins no token. -/
theorem Token.cases_of_lex_error {text : String} {e : MacroError} (h : lex text = .error e) :
    (∃ offset, e = .unterminated .literal offset) ∨
      ∃ c offset, e = .unexpectedCharacter c offset := by
  obtain ⟨before, after, -, -, hstops⟩ := lex_eq_error_iff.1 h
  generalize after.toList = cs at hstops
  cases hstops with
  | unexpected => exact .inr ⟨_, _, rfl⟩
  | unterminated => exact .inl ⟨_, rfl⟩

namespace MacroTable

/-- **Every error of an expansion says what is the case.**  It is the one for which the text cannot
be read, or the text can be read and the error is explained by the table and the limits.  It is
never about a definition; and it is about a literal or a character only if the text cannot be
read, so no error of reading glued spellings gets out. -/
theorem Reachable.explains_of_expand {table : MacroTable} (h : table.Reachable) {limits : Limits}
    {text : String} {e : MacroError} (he : table.expand limits text = .error e) :
    (Token.lex text = .error e ∨
      (∃ tokens, Token.lex text = .ok tokens) ∧ table.Explains limits e) ∧
    (∀ fault, e ≠ .malformedDefinition fault) ∧ (∀ name, e ≠ .danglingPaste name) ∧
    (∀ name, e ≠ .strayStringize name) ∧
    ((∃ tokens, Token.lex text = .ok tokens) →
      (∀ what offset, e ≠ .unterminated what offset) ∧
        ∀ c offset, e ≠ .unexpectedCharacter c offset) := by
  cases hlex : Token.lex text with
  | error fault =>
      rw [expand, hlex] at he
      cases he
      refine ⟨.inl rfl, ?_⟩
      obtain ⟨offset, rfl⟩ | ⟨c, offset, rfl⟩ := Token.cases_of_lex_error hlex <;> simp
  | ok tokens =>
      rw [expand_of_lex hlex, expandTokens_eq_map] at he
      have hexplains := (Scan.explained_run h.filed limits.steps 0 0 []
        (tokens.map Painted.plain)).map _ e he
      refine ⟨.inr ⟨⟨tokens, rfl⟩, hexplains⟩, ?_⟩
      cases hexplains <;> simp

/-- Gluing to a literal that is broken by a line feed, in an argument: the spellings cannot be read,
and the error says that they do not join. -/
theorem explains_of_expand_glued :
    ∃ table : MacroTable, table.Reachable ∧
      table.expand {} "F(Q('\\\n',a))" = .error (.invalidPaste "\"'\\\\\n'\"" "a") ∧
      Token.lex ("\"'\\\\\n'\"" ++ "a") = .error (.unterminated .literal 0) ∧
      table.Explains {} (.invalidPaste "\"'\\\\\n'\"" "a") := by
  have hF : Definition.ofCommandLine "F(x)=x" = .ok ⟨"F", some ["x"], false, [.name "x"]⟩ := by cbv
  have hQ : Definition.ofCommandLine "Q(x,y)=#x##y" = .ok ⟨"Q", some ["x", "y"], false,
      [.mark "#", .name "x", .mark "##", .name "y"]⟩ := by cbv
  have hreachable := (Reachable.empty.define_read hF).define_read hQ
  have he : ((MacroTable.empty.define ⟨"F", some ["x"], false, [.name "x"]⟩).define
      ⟨"Q", some ["x", "y"], false, [.mark "#", .name "x", .mark "##", .name "y"]⟩).expand {}
      "F(Q('\\\n',a))" = .error (.invalidPaste "\"'\\\\\n'\"" "a") := by cbv
  have hglued : Token.lex ("\"'\\\\\n'\"" ++ "a") = .error (.unterminated .literal 0) := by cbv
  refine ⟨_, hreachable, he, hglued, ?_⟩
  obtain ⟨hlex | ⟨-, hexplains⟩, -⟩ := hreachable.explains_of_expand he
  · obtain ⟨offset, herror⟩ | ⟨c, offset, herror⟩ := Token.cases_of_lex_error hlex <;> cases herror
  · exact hexplains

end MacroTable

end VariadicMacros
