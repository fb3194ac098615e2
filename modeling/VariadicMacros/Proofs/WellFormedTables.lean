/-
**What the definitions of a session have in common.**

A session keeps a table and limits.  Sources are loaded into the table, definitions of a command
line are added to it, the limits are changed, and a source may start the session anew; each of this
can fail, and leaves behind what it did before.  Whatever is done in whatever order, a definition
stands in the table under its own name and is well-formed: its name and its parameters are
identifiers, its operators have their operands, and every token of its replacement list is read
back from its spelling.

Main definitions:

* `VariadicMacros.Definition.WellFormed` — what the reader of definitions guarantees;
* `VariadicMacros.Session` with `Session.step` and `Session.run`.

Main results:

* `VariadicMacros.Definition.wellFormed_of_isRead` — **every definition that is read is
  well-formed**;
* `VariadicMacros.Session.reachable_step`, `VariadicMacros.Session.reachable_run` — the tables of
  sessions are reachable ones.
-/

import VariadicMacros.Proofs.PastedChains
import VariadicMacros.Proofs.PrintedExpansions

set_option autoImplicit false

namespace VariadicMacros

open Text (isIdentifier)

namespace Definition

/-! ### Well-formed definitions -/

/-- What holds of a definition whatever text it is read from. -/
structure WellFormed (d : Definition) : Prop where
  /-- The name is an identifier. -/
  name : isIdentifier d.name.toList = true
  /-- No parameter occurs twice. -/
  nodup : ∀ names, d.parameters = some names → names.Nodup
  /-- The parameters are identifiers, and none is named like the arguments of the ellipsis. -/
  parameters : ∀ names, d.parameters = some names →
    ∀ n ∈ names, isIdentifier n.toList = true ∧ n ≠ variadicName
  /-- Only a function-like macro has an ellipsis. -/
  variadic : d.variadic = true → d.isFunctionLike = true
  /-- The replacement list does not begin with `##`. -/
  head : ∀ t, d.body.head? = some t → t.isMark "##" = false
  /-- The replacement list does not end with `##`. -/
  last : ∀ t, d.body.getLast? = some t → t.isMark "##" = false
  /-- In a function-like macro a parameter follows every `#`, or the name of the arguments of the
  ellipsis if there is one. -/
  operand : ∀ names, d.parameters = some names → ∀ i t, d.body[i]? = some t →
    t.isMark "#" = true → ∃ next, d.body[i + 1]? = some next ∧ next.kind = .identifier ∧
      (next.text ∈ names ∨ d.variadic = true ∧ next.text = variadicName)
  /-- The replacement list has no space before it. -/
  unspaced : ∀ t, d.body.head? = some t → t.spaced = false
  /-- Every token is what its spelling is read as. -/
  spelled : ∀ t ∈ d.body, Token.lex t.text = .ok [{ t with spaced := false }]
  /-- No token hides a name before a call puts it out. -/
  unhidden : ∀ p ∈ d.body.map Painted.plain, p.hidden = []

/-! ### Reading definitions -/

theorem isIdentifier_of_isLexeme {t : Token} (h : Lexeme.isLexeme t.kind t.text.toList = true)
    (hkind : t.kind = .identifier) : isIdentifier t.text.toList = true := by
  rwa [hkind] at h

/-- The name and the parameters that lexemes declare are identifiers. -/
theorem Declares.heading {tokens : List Token} {d : Definition} (h : Declares tokens d)
    (htokens : ∀ t ∈ tokens, Lexeme.isLexeme t.kind t.text.toList = true) :
    isIdentifier d.name.toList = true ∧ (d.variadic = true → d.isFunctionLike = true) ∧
      ∀ names, d.parameters = some names → names.Nodup ∧
        ∀ n ∈ names, isIdentifier n.toList = true ∧ n ≠ variadicName := by
  cases h with
  | objectLike hname =>
      exact ⟨isIdentifier_of_isLexeme (htokens _ List.mem_cons_self) hname, by simp, by simp⟩
  | @functionLike t opening close inside body names variadic hname _ _ hinside hnodup hnames =>
      refine ⟨isIdentifier_of_isLexeme (htokens t List.mem_cons_self) hname, fun _ => rfl, ?_⟩
      rintro names ⟨rfl⟩
      refine ⟨hnodup, fun n hn => ⟨?_, fun heq => hnames (heq ▸ hn)⟩⟩
      -- A parameter is one of the tokens between the parentheses.
      have hmem : Word.name n ∈ inside.map Token.word := by
        rw [hinside]
        exact name_mem_parameterWords hn variadic
      obtain ⟨u, hu, hword⟩ := List.mem_map.1 hmem
      obtain ⟨hkind, rfl⟩ := Token.word_eq_name.1 hword
      exact isIdentifier_of_isLexeme (htokens u (by simp [hu])) hkind

/-- **Every definition that is read is well-formed.** -/
theorem wellFormed_of_isRead {d : Definition} (h : d.IsRead) : d.WellFormed := by
  have hread := h
  obtain ⟨cs, tokens, hlex, hd⟩ := h
  have hlexemes := (Token.lexChars_eq_ok_iff.1 hlex).isLexeme_of_mem
  obtain ⟨hdeclares, hpaste, hstringize⟩ := ofTokens_eq_ok_iff.1 hd
  obtain ⟨hname, hvariadic, hparameters⟩ := hdeclares.heading hlexemes
  obtain ⟨rest, -, hbody⟩ := hdeclares.exists_suffix
  exact
    { name := hname
      nodup := fun names hnames => (hparameters names hnames).1
      parameters := fun names hnames => (hparameters names hnames).2
      variadic := hvariadic
      head := hpaste.1
      last := hpaste.2
      operand := by
        intro names hnames i t ht hmark
        have hfunction : d.isFunctionLike = true := by simp [isFunctionLike, hnames]
        obtain ⟨next, hnext, hkind, others, hothers, hparameter⟩ := hstringize hfunction i t ht hmark
        rw [hnames, Option.some_inj] at hothers
        rw [← hothers] at hparameter
        exact ⟨next, hnext, hkind, hparameter⟩
      unspaced := by
        intro t ht
        rw [hbody] at ht
        cases rest with
        | nil => cases ht
        | cons u us =>
            cases ht
            rfl
      spelled := by
        intro t ht
        have hlexeme := isLexeme_of_isRead hread t ht
        rw [Token.lex_eq_ok_iff, ← List.append_nil t.text.toList]
        have hreads : Token.Reads false (t.text.toList ++ [])
            [⟨t.kind, String.ofList t.text.toList, false⟩] :=
          .lexeme hlexeme (Lexeme.endsBefore_nil t.kind _) (.nil false)
        rwa [String.ofList_toList] at hreads
      unhidden := by
        intro p hp
        obtain ⟨t, -, rfl⟩ := List.mem_map.1 hp
        rfl }

end Definition

/-! ### Sessions -/

/-- A table and the limits of expansions with it. -/
structure Session where
  table : MacroTable
  limits : Limits

namespace Session

/-- What is done in a session. -/
inductive Step
  /-- Loads a source into the table. -/
  | load (source : String)
  /-- Adds a definition of a command line. -/
  | define (definition : String)
  /-- Starts anew with the definitions of a source, unless the source is wrong. -/
  | restart (source : String)
  /-- Changes the limits. -/
  | limit (limits : Limits)

/-- A session after one more step. -/
def step (s : Session) : Step → Session
  | .load source => { s with table := (s.table.load source).table }
  | .define definition => { s with table := (s.table.defineFrom definition).table }
  | .restart source =>
    match (MacroTable.empty.load source).result with
    | .ok _ => ⟨(MacroTable.empty.load source).table, {}⟩
    | .error _ => s
  | .limit limits => { s with limits := limits }

/-- A session that starts with the empty table and the usual limits. -/
def run (steps : List Step) : Session := steps.foldl step ⟨.empty, {}⟩

/-- **One more step leads from a reachable table to a reachable one**, whether it succeeds or
fails. -/
theorem reachable_step {s : Session} (h : s.table.Reachable) (step : Step) :
    (s.step step).table.Reachable := by
  cases step with
  | load source => exact h.load source
  | define definition => exact h.define definition
  | restart source =>
      unfold Session.step
      simp only
      split
      · exact MacroTable.Reachable.empty.load source
      · exact h
  | limit limits => exact h

/-- The table of a session is reachable. -/
theorem reachable_run (steps : List Step) : (run steps).table.Reachable := by
  have hfrom : ∀ s : Session, s.table.Reachable → (steps.foldl step s).table.Reachable := by
    induction steps with
    | nil => exact fun s h => h
    | cons step steps ih => exact fun s h => ih (s.step step) (reachable_step h step)
  exact hfrom _ .empty

end Session

end VariadicMacros
