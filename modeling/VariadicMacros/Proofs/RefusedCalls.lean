/-
**Calls with the wrong number of arguments.**

A call that does not suit its macro ends a scan, whatever stands after it and whatever was put out
before it: the error names the macro, what it demands, and the number of arguments that it was
given.  A scan that gets to such a call fails, and so does the expansion of a text whose scan does.

Main definitions:

* `VariadicMacros.Scan.Fails` — the scan of a text fails for a cause;
* `VariadicMacros.MacroTable.Refuses` — every text of some words fails for a cause.

Main results:

* `VariadicMacros.Definition.bind_eq_error` — arguments that do not suit a macro are counted;
* `VariadicMacros.Scan.fails_call` — **a call with the wrong number of arguments fails**;
* `VariadicMacros.Scan.Fails.refuses` — and so does the expansion of a text that gets to it.
-/

import VariadicMacros.Proofs.Rewriting

set_option autoImplicit false

namespace VariadicMacros

open Painted (Shows)

/-- Every text of the words `ws` fails for the cause `e`. -/
def MacroTable.Refuses (table : MacroTable) (limits : Limits) (ws : List Word) (e : MacroError) :
    Prop :=
  ∀ (text : String) (tokens : List Token), Token.lex text = .ok tokens →
    tokens.map Token.word = ws → table.expand limits text = .error e

namespace Definition

/-- Arguments that do not suit a macro are counted, and the macro is named. -/
theorem bind_eq_error {d : Definition} (hd : d.isFunctionLike = true) {hidden : List String}
    {actuals : List (List Painted)} {arguments : List (List Word)} (hne : arguments ≠ [])
    (h : List.Forall₂ (Shows hidden) actuals arguments) (htakes : d.takes arguments = false) :
    d.bind actuals = .error (.argumentCount d.name d.demand arguments.length) := by
  have hsuits : d.suits actuals = false := by
    unfold takes at htakes
    unfold suits
    split at htakes
    · next hdemand =>
      rw [if_pos hdemand]
      rw [beq_eq_false_iff_ne] at htakes ⊢
      rintro rfl
      cases h with
      | cons ha hrest =>
          cases hrest
          exact htakes (congrArg (· :: []) ha.words.symm)
    · next hdemand =>
      rw [if_neg hdemand, h.length_eq]
      simpa [hne] using htakes
  obtain ⟨names, hnames⟩ := Option.isSome_iff_exists.1 hd
  simp only [bind, hnames, hsuits, Bool.false_eq_true, if_false, h.length_eq]

end Definition

namespace Scan

variable {table : MacroTable}

/-- Wherever the limits leave room for `cost` invocations and for `depth` nested scans, the scan
of `text` fails for the cause `e`. -/
def Fails (table : MacroTable) (depth cost : Nat) (text : List Painted) (e : MacroError) : Prop :=
  ∀ (limits : Limits) (supply level steps : Nat) (out : List Painted),
    level + depth ≤ limits.depth → steps + cost ≤ limits.steps → cost ≤ supply →
      run table limits supply level steps out text = .error e

namespace Fails

variable {depth cost cost' : Nat} {text mid done : List Painted} {e : MacroError}

/-- A scan that gets to a text that fails does so itself. -/
theorem of_reaches (h : Reaches table depth cost text done mid)
    (h' : Fails table depth cost' mid e) : Fails table depth (cost + cost') text e := by
  intro limits supply level steps out hdepth hsteps hsupply
  obtain ⟨supply', used, hused, hsupply', hrun⟩ :=
    h limits supply level steps out hdepth (by omega) (by omega)
  rw [hrun]
  exact h' limits supply' level (steps + used) _ hdepth (by omega) (by omega)

/-- What fails a scan fails the expansion of a text. -/
theorem refuses {ws : List Word} (h : ∀ ps, Shows [] ps ws → Fails table depth cost ps e)
    {limits : Limits} (hdepth : depth ≤ limits.depth) (hsteps : cost ≤ limits.steps) :
    table.Refuses limits ws e := by
  intro text tokens hlex hwords
  have hshows : Shows [] (tokens.map Painted.plain) ws := hwords ▸ Shows.plain tokens
  have hrun := h _ hshows limits limits.steps 0 0 [] (by omega) (by omega) hsteps
  simp only [MacroTable.expand, hlex, MacroTable.expandTokens, hrun]

end Fails

/-- **A call with the wrong number of arguments fails**, whatever follows it. -/
theorem fails_call {d : Definition} (hd : table[d.name]? = some d)
    (hfunction : d.isFunctionLike = true) {p : Painted} (hp : p.word = .name d.name)
    (hfree : d.name ∉ p.hidden) {arguments : List (List Word)} (hne : arguments ≠ [])
    (hargument : ∀ a ∈ arguments, Word.IsArgument a) (htakes : d.takes arguments = false)
    {hidden : List String} {ps : List Painted} (hps : Shows hidden ps (Word.parens arguments))
    (depth : Nat) (after : List Painted) :
    Fails table depth 1 (p :: ps ++ after)
      (.argumentCount d.name d.demand arguments.length) := by
  obtain ⟨actuals, names, hactuals, -, hadvance⟩ :=
    exists_advance_call hd hfunction hp hfree hne hargument hps
  intro limits supply level steps out _ hsteps hsupply
  obtain ⟨supply, rfl⟩ := Nat.exists_eq_add_of_le' hsupply
  rw [run.eq_def, hadvance]
  simp only [if_neg (show ¬ limits.steps ≤ steps by omega),
    Definition.bind_eq_error hfunction hne hactuals htakes]

end Scan

end VariadicMacros
