/-
**Expansion with object-like macros is replacement in depth.**

In a table of object-like macros without `##` nothing is read but names.  A name is replaced by
the tokens of its body, these are replaced in turn while the name is hidden from them, and so on;
the recursion ends because every level hides one more name of the table.  A scan does the same with
a text that it works off from the left: what is still to come is a list of tokens, each with the
names that were replaced on the way to it.

Main definitions:

* `VariadicMacros.MacroTable.IsObjectLike` — only object-like macros, and no `##`;
* `VariadicMacros.MacroTable.replaced`, `VariadicMacros.MacroTable.replacements` — what becomes of a
  token in depth, and how many names are replaced for it.

Main results:

* `VariadicMacros.Scan.run_of_isObjectLike` — a scan shows the replacements of the text that is
  still to come;
* `VariadicMacros.MacroTable.expand_of_isObjectLike` — **a text expands to the replacements of its
  tokens** if the limit allows as many invocations as names are replaced.
-/

import VariadicMacros.Proofs.JoinedTexts
import VariadicMacros.Proofs.ReachableTables

set_option autoImplicit false

namespace VariadicMacros

namespace MacroTable

/-- The table holds only object-like macros, and `##` stands in the body of none. -/
def IsObjectLike (table : MacroTable) : Prop :=
  ∀ (n : String) (d : Definition), table[n]? = some d →
    d.parameters = none ∧ ∀ t ∈ d.body, t.isMark "##" = false

/-! ### Replacement in depth -/

/-- The tokens that stand for a name of the table, unless it is one of `hidden`: the body of the
macro, with the space mark of the name. -/
def replacement? (table : MacroTable) (hidden : List String) (t : Token) : Option (List Token) :=
  if t.kind = .identifier ∧ t.text ∉ hidden then
    table[t.text]?.map fun d => Token.respace t.spaced d.body
  else none

/-- The names of the table that are not hidden. -/
def unhidden (table : MacroTable) (hidden : List String) : List String :=
  table.keys.filter (· ∉ hidden)

theorem replacement?_eq_some {table : MacroTable} {hidden : List String} {t : Token}
    {body : List Token} : table.replacement? hidden t = some body ↔
      t.kind = .identifier ∧ t.text ∉ hidden ∧
        ∃ d, table[t.text]? = some d ∧ Token.respace t.spaced d.body = body := by
  unfold replacement?
  split
  · next h => simp [h]
  · next h => simpa using fun hkind hhidden => absurd ⟨hkind, hhidden⟩ h

/-- Each level of replacement hides one more name of the table. -/
theorem length_unhidden_lt {table : MacroTable} {hidden : List String} {t : Token}
    {body : List Token} (h : table.replacement? hidden t = some body) :
    (table.unhidden (t.text :: hidden)).length < (table.unhidden hidden).length := by
  obtain ⟨-, hhidden, d, hd, -⟩ := replacement?_eq_some.1 h
  have hopen : t.text ∈ table.unhidden hidden := by
    simp [unhidden, mem_keys_of_getElem? hd, hhidden]
  have hfilter : table.unhidden (t.text :: hidden) =
      (table.unhidden hidden).filter (· ≠ t.text) := by
    rw [unhidden, unhidden, List.filter_filter]
    exact List.filter_congr fun n _ => by simp
  rw [hfilter]
  exact List.length_filter_lt_length_iff_exists.2 ⟨t.text, hopen, by simp⟩

/-- What becomes of a token in depth while the names in `hidden` stay: the tokens that it is
replaced by are replaced in turn, with its name hidden besides. -/
def replaced (table : MacroTable) (hidden : List String) (t : Token) : List Token :=
  match _ : table.replacement? hidden t with
  | none => [t]
  | some body => body.flatMap (table.replaced (t.text :: hidden))
termination_by (table.unhidden hidden).length
decreasing_by exact length_unhidden_lt ‹_›

/-- How many names are replaced in depth for a token. -/
def replacements (table : MacroTable) (hidden : List String) (t : Token) : Nat :=
  match _ : table.replacement? hidden t with
  | none => 0
  | some body => 1 + (body.map (table.replacements (t.text :: hidden))).sum
termination_by (table.unhidden hidden).length
decreasing_by exact length_unhidden_lt ‹_›

section Equations

variable (table : MacroTable) (hidden : List String) (t : Token)

theorem replaced_eq :
    table.replaced hidden t =
      match table.replacement? hidden t with
      | none => [t]
      | some body => body.flatMap (table.replaced (t.text :: hidden)) := by
  rw [replaced]
  split <;> simp_all

theorem replacements_eq :
    table.replacements hidden t =
      match table.replacement? hidden t with
      | none => 0
      | some body => 1 + (body.map (table.replacements (t.text :: hidden))).sum := by
  rw [replacements]
  split <;> simp_all

end Equations

end MacroTable

/-! ### One replacement -/

section Substitution

variable {d : Definition} {actuals : List (List Painted)}
  {expandArgument : Substitution.ExpandArgument}

/-- Without parameters and without `##` a walk puts every token out, also a `#`. -/
theorem Substitution.fill_of_parameters_eq_none (hd : d.parameters = none) {body : List Token}
    (hbody : ∀ t ∈ body, t.isMark "##" = false) (w : Walk) :
    fill d actuals expandArgument body w = .ok (w.emit (body.map Painted.plain)) := by
  induction body generalizing w with
  | nil => rw [fill_nil, List.map_nil, emit_nil]
  | cons t rest ih =>
      have hmove : nextMove d actuals t rest = (.put [.plain t], rest) := by
        cases rest with
        | nil => simp [nextMove, plainMove, Definition.parameterIndex?_of_parameters_eq_none hd]
        | cons next rest =>
            simp [nextMove, Definition.parameterIndex?_of_parameters_eq_none hd,
              hbody t List.mem_cons_self]
      rw [fill_eq_carryOut, hmove]
      simp only [Move.carryOut]
      rw [ih fun u hu => hbody u (List.mem_cons_of_mem t hu)]
      simp [Walk.emit]

/-- An object-like macro without `##` gives its body, from which the hidden names are hidden. -/
theorem Definition.replacement_of_parameters_eq_none (hd : d.parameters = none)
    (hbody : ∀ t ∈ d.body, t.isMark "##" = false) (hidden : HideSet) (steps : Nat) :
    d.replacement actuals expandArgument hidden steps =
      .ok (d.body.map fun t => ⟨t, hidden⟩, steps) := by
  rw [replacement, Substitution.fill_of_parameters_eq_none hd hbody]
  simp [Substitution.Walk.emit, Painted.hide, Painted.plain, HideSet.union]

end Substitution

namespace Scan

variable {table : MacroTable} {limits : Limits} {supply level steps : Nat} {p : Painted}

/-- A token is replaced exactly when it invokes the macro that it names. -/
theorem replacement?_eq_map (p : Painted) :
    table.replacement? p.hidden p.toToken =
      (definition? table p).map fun d => Token.respace p.spaced d.body := by
  simp only [MacroTable.replacement?, definition?, Painted.isHidden, List.contains_eq_mem,
    Bool.and_eq_true, decide_eq_true_eq, Bool.not_eq_true', decide_eq_false_iff_not]
  split <;> rfl

theorem stopAt?_of_replacement?_eq_none (h : table.replacement? p.hidden p.toToken = none)
    (rest : List Painted) : stopAt? table p rest = none := by
  rw [replacement?_eq_map, Option.map_eq_none_iff] at h
  rw [stopAt?, h]

/-- A token with a replacement is a call of the object-like macro that it names. -/
theorem exists_advance_of_replacement? (hfiled : table.Filed) (hobject : table.IsObjectLike)
    {body : List Token} (h : table.replacement? p.hidden p.toToken = some body)
    (out rest : List Painted) :
    ∃ d, advance table out (p :: rest) = (out, .call ⟨p, d, [], p.text :: p.hidden, rest⟩) ∧
      d.parameters = none ∧ (∀ t ∈ d.body, t.isMark "##" = false) ∧
      Token.respace p.spaced d.body = body := by
  obtain ⟨hkind, hhidden, d, hd, hbody⟩ := MacroTable.replacement?_eq_some.1 h
  obtain ⟨hparameters, hpaste⟩ := hobject _ d hd
  refine ⟨d, ?_, hparameters, hpaste, hbody⟩
  have hdefinition : definition? table p = some d := by
    simp [definition?, Painted.isHidden, hkind, hhidden, hd]
  have hfunction : d.isFunctionLike = false := by simp [Definition.isFunctionLike, hparameters]
  rw [advance_cons, stopAt?, hdefinition]
  simp [hfunction, (hfiled _ d hd).1, HideSet.add, hhidden]

/-- The space mark of a replacement can be set before the names are hidden from it. -/
theorem respace_map_hidden (b : Bool) (hidden : HideSet) (ts : List Token) :
    Painted.respace b (ts.map fun t => ⟨t, hidden⟩) =
      (Token.respace b ts).map fun t => ⟨t, hidden⟩ := by
  cases ts <;> rfl

/-- With room for it a scan puts the replacement of a name in its place, hides the name from it, and
counts one invocation. -/
theorem run_of_replacement? (hfiled : table.Filed) (hobject : table.IsObjectLike)
    {body : List Token} (h : table.replacement? p.hidden p.toToken = some body)
    (hroom : steps < limits.steps) (out rest : List Painted) :
    run table limits (supply + 1) level steps out (p :: rest) =
      run table limits supply level (steps + 1) out
        (body.map (fun t => ⟨t, p.text :: p.hidden⟩) ++ rest) := by
  obtain ⟨d, hadvance, hparameters, hpaste, hbody⟩ :=
    exists_advance_of_replacement? hfiled hobject h out rest
  have hbind : d.bind [] = .ok [] := by simp [Definition.bind, hparameters]
  rw [run_of_call_eq_bind hadvance hroom]
  simp only [hbind, Except.bind, Definition.replacement_of_parameters_eq_none hparameters hpaste]
  rw [respace_map_hidden, hbody]

/-- A name that is to be replaced beyond the limit is refused. -/
theorem run_of_replacement?_of_le (hfiled : table.Filed) (hobject : table.IsObjectLike)
    {body : List Token} (h : table.replacement? p.hidden p.toToken = some body)
    (hle : limits.steps ≤ steps) (out rest : List Painted) :
    run table limits supply level steps out (p :: rest) = .error (.stepLimit limits.steps) := by
  obtain ⟨d, hadvance, -⟩ := exists_advance_of_replacement? hfiled hobject h out rest
  exact run_of_no_room hadvance fun hroom => absurd hroom.1 (Nat.not_lt.2 hle)

/-! ### The text that is still to come -/

/-- What becomes of a text that is still to be scanned: of every token, while the names that it
hides stay. -/
def replaced (table : MacroTable) (text : List Painted) : List Token :=
  text.flatMap fun p => table.replaced p.hidden p.toToken

/-- How many names are replaced in a text that is still to be scanned. -/
def replacements (table : MacroTable) (text : List Painted) : Nat :=
  (text.map fun p => table.replacements p.hidden p.toToken).sum

theorem replaced_cons (rest : List Painted) : replaced table (p :: rest) =
    table.replaced p.hidden p.toToken ++ replaced table rest := rfl

theorem replacements_cons (rest : List Painted) : replacements table (p :: rest) =
    table.replacements p.hidden p.toToken + replacements table rest := rfl

/-- What a replacement leaves to be scanned counts for the name that it stands for. -/
theorem replaced_append_of_replacement? {body : List Token}
    (h : table.replacement? p.hidden p.toToken = some body) (rest : List Painted) :
    replaced table (body.map (fun t => ⟨t, p.text :: p.hidden⟩) ++ rest) =
      replaced table (p :: rest) := by
  rw [replaced_cons, MacroTable.replaced_eq, h]
  simp [replaced, List.flatMap_map]

theorem replacements_append_of_replacement? {body : List Token}
    (h : table.replacement? p.hidden p.toToken = some body) (rest : List Painted) :
    1 + replacements table (body.map (fun t => ⟨t, p.text :: p.hidden⟩) ++ rest) =
      replacements table (p :: rest) := by
  rw [replacements_cons, MacroTable.replacements_eq, h]
  simp [replacements, Nat.add_assoc, Function.comp_def]

/-- **A scan shows the replacements of the text that is still to come**, after what it has put out,
and counts one invocation for each; where these are more than the limit allows, it fails. -/
theorem run_of_isObjectLike (hfiled : table.Filed) (hobject : table.IsObjectLike)
    {out text : List Painted} (hsteps : steps ≤ limits.steps)
    (hsupply : limits.steps ≤ steps + supply) :
    (run table limits supply level steps out text).map
        (fun r => (⟨r.1.map Painted.toToken, r.2⟩ : Expansion)) =
      if steps + replacements table text ≤ limits.steps then
        .ok ⟨out.reverse.map Painted.toToken ++ replaced table text,
          steps + replacements table text⟩
      else .error (.stepLimit limits.steps) := by
  -- Every call takes one of the supply, and up to the next one the text gets shorter.
  induction supply using Nat.strongRecOn generalizing steps out text with
  | _ supply ih =>
      induction text generalizing out with
      | nil =>
          rw [run_of_finished rfl]
          simp [replaced, replacements, hsteps, Except.map]
      | cons p rest ihrest =>
          cases hp : table.replacement? p.hidden p.toToken with
          | none =>
              rw [run_cons_of_none (stopAt?_of_replacement?_eq_none hp rest), ihrest, replaced_cons,
                replacements_cons, MacroTable.replaced_eq, MacroTable.replacements_eq, hp]
              simp
          | some body =>
              have hcount := replacements_append_of_replacement? hp rest
              by_cases hroom : steps + 1 ≤ limits.steps
              · obtain ⟨supply, rfl⟩ : ∃ n, supply = n + 1 := ⟨supply - 1, by omega⟩
                rw [run_of_replacement? hfiled hobject hp hroom,
                  ih supply (Nat.lt_succ_self supply) hroom (by omega),
                  replaced_append_of_replacement? hp, ← hcount, Nat.add_assoc]
              · rw [run_of_replacement?_of_le hfiled hobject hp (by omega), if_neg (by omega)]
                rfl

end Scan

/-! ### Expansions -/

namespace MacroTable

/-- **A text expands to the replacements of its tokens.**  With object-like macros only, none of
which pastes, an expansion has the tokens that replacement in depth gives and counts every name
that is replaced; it is cut short exactly when these names are more than the limit allows. -/
theorem expand_of_isObjectLike {table : MacroTable} (h : table.Reachable)
    (hobject : table.IsObjectLike) (limits : Limits) {text : String} {tokens : List Token}
    (hlex : Token.lex text = .ok tokens) :
    table.expand limits text =
      if (tokens.map (table.replacements [])).sum ≤ limits.steps then
        .ok ⟨tokens.flatMap (table.replaced []), (tokens.map (table.replacements [])).sum⟩
      else .error (.stepLimit limits.steps) := by
  have hreplaced : Scan.replaced table (tokens.map Painted.plain) =
      tokens.flatMap (table.replaced []) := by
    simp [Scan.replaced, List.flatMap_map]
  have hreplacements : Scan.replacements table (tokens.map Painted.plain) =
      (tokens.map (table.replacements [])).sum := by
    simp [Scan.replacements, Function.comp_def]
  rw [expand_of_lex hlex, expandTokens_eq_map,
    Scan.run_of_isObjectLike h.filed hobject (Nat.zero_le _) (Nat.le_add_left _ _), hreplaced,
    hreplacements]
  simp

/-- Two macros that name one another, with room for all invocations and with one too few. -/
theorem expand_of_isObjectLike_mutual :
    ∃ table : MacroTable, table.Reachable ∧ table.IsObjectLike ∧
      table["A"]? = some ⟨"A", none, false, [.name "B", (Token.name "x").afterSpace]⟩ ∧
      table["B"]? = some ⟨"B", none, false, [.name "A", (Token.mark "#").afterSpace]⟩ ∧
      table.expand ⟨4, 0⟩ "A B" = .ok ⟨[.name "A", (Token.mark "#").afterSpace,
        (Token.name "x").afterSpace, (Token.name "B").afterSpace, (Token.name "x").afterSpace,
        (Token.mark "#").afterSpace], 4⟩ ∧
      table.expand ⟨3, 0⟩ "A B" = .error (.stepLimit 3) := by
  have hA : Definition.ofCommandLine "A=B x" =
      .ok ⟨"A", none, false, [.name "B", (Token.name "x").afterSpace]⟩ := by cbv
  have hB : Definition.ofCommandLine "B=A #" =
      .ok ⟨"B", none, false, [.name "A", (Token.mark "#").afterSpace]⟩ := by cbv
  have hlex : Token.lex "A B" = .ok [.name "A", (Token.name "B").afterSpace] := by cbv
  have hreachable := (Reachable.empty.define_read hA).define_read hB
  obtain ⟨table, htable⟩ : ∃ table : MacroTable, table = (MacroTable.empty.define
    ⟨"A", none, false, [.name "B", (Token.name "x").afterSpace]⟩).define
      ⟨"B", none, false, [.name "A", (Token.mark "#").afterSpace]⟩ := ⟨_, rfl⟩
  rw [← htable] at hreachable
  have hlookup : ∀ n, table[n]? = if "B" = n then
      some ⟨"B", none, false, [.name "A", (Token.mark "#").afterSpace]⟩
    else if "A" = n then some ⟨"A", none, false, [.name "B", (Token.name "x").afterSpace]⟩
    else none := by
    intro n
    simp [htable, getElem?_define]
  have hobject : table.IsObjectLike := by
    intro n d hd
    rw [hlookup] at hd
    split at hd
    · cases hd
      decide
    · split at hd
      · cases hd
        decide
      · cases hd
  refine ⟨table, hreachable, hobject, by simp [hlookup], by simp [hlookup], ?_, ?_⟩
  · rw [expand_of_isObjectLike hreachable hobject ⟨4, 0⟩ hlex]
    simp [replaced_eq, replacements_eq, replacement?, hlookup, Token.name, Token.mark,
      Token.afterSpace]
  · rw [expand_of_isObjectLike hreachable hobject ⟨3, 0⟩ hlex]
    simp [replacements_eq, replacement?, hlookup, Token.name, Token.mark, Token.afterSpace]

end MacroTable

end VariadicMacros
