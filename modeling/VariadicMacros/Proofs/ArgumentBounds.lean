/-
**Every argument that is looked up is there.**

Positions in the arguments of a call are looked up in five places of a walk over a replacement
list: for the operand of `#`, for the right operand of `##`, for a parameter before `##`, for the
parameter after a `##` that loses its left operand, and for a parameter whose argument is expanded.
Here a second walk looks at each position first, and stops where there is no argument.  It never
stops: a call binds one token list for every slot of its definition, and the positions of
parameters are slots.  So whatever is done in a session, expanding a text looks up arguments that
are there.

Main definitions:

* `VariadicMacros.Substitution.Fault` — a failing substitution, or a position without argument;
* `VariadicMacros.Substitution.checkedFill`, `VariadicMacros.Scan.checkedRun`,
  `VariadicMacros.MacroTable.checkedExpand` — the walk, the scan and the expansion that look at
  their positions.

Main results:

* `VariadicMacros.Substitution.checkedFill_eq` — **a walk over bound arguments finds them all**;
* `VariadicMacros.Scan.checkedRun_eq`, `VariadicMacros.MacroTable.checkedExpand_eq` — so does a
  scan, and an expansion;
* `VariadicMacros.Session.wellFormed_inRange` — **what every session keeps**.
-/

import VariadicMacros.Proofs.WellFormedTables

set_option autoImplicit false

namespace VariadicMacros

namespace Substitution

/-! ### Looking at positions -/

/-- Why a substitution that looks at its positions stops. -/
inductive Fault
  | error (e : MacroError)
  /-- There is no argument at a position. -/
  | outOfRange (position : Nat)
  deriving DecidableEq, Repr

/-- The argument at a position, if there is one. -/
def argumentAt (actuals : List (List Painted)) (i : Nat) : Except Fault (List Painted) :=
  match actuals[i]? with
  | some argument => .ok argument
  | none => .error (.outOfRange i)

/-- Expands an argument and looks at its positions. -/
abbrev CheckedExpand := List Painted → Nat → Except Fault (List Painted × Nat)

/-- The expansion of the argument at position `i`.  What is remembered has a cell for every
argument, so that the one look serves both. -/
def Walk.checkedExpansion (expandArgument : CheckedExpand) (actuals : List (List Painted)) (i : Nat)
    (w : Walk) : Except Fault (List Painted × Walk) :=
  match argumentAt actuals i with
  | .error fault => .error fault
  | .ok argument =>
    match w.expanded.lookup i with
    | some tokens => .ok (tokens, w)
    | none =>
      match expandArgument argument w.steps with
      | .error fault => .error fault
      | .ok (tokens, steps) =>
        .ok (tokens, { w with expanded := (i, tokens) :: w.expanded, steps := steps })

/-- The right operand of a `##` that the token `t` follows. -/
def checkedOperand (d : Definition) (actuals : List (List Painted)) (t : Token) :
    Except Fault (List Painted) :=
  match d.parameterIndex? t with
  | some i => argumentAt actuals i
  | none => .ok [.plain t]

/-- Glues tokens to what a walk has put out. -/
def Walk.checkedGlue (w : Walk) (right : List Painted) : Except Fault Walk :=
  match paste w.out right with
  | .error e => .error (.error e)
  | .ok out => .ok { w with out := out }

/-- Walks over a replacement list and looks at every position first. -/
def checkedFill (d : Definition) (actuals : List (List Painted)) (expandArgument : CheckedExpand) :
    List Token → Walk → Except Fault Walk
  | [], w => .ok w
  | t :: [], w =>
    match d.parameterIndex? t with
    | none => .ok (w.emit [.plain t])
    | some i =>
      match w.checkedExpansion expandArgument actuals i with
      | .error fault => .error fault
      | .ok (tokens, w) => .ok (w.emit (Painted.respace t.spaced tokens))
  | t :: next :: rest, w =>
    if t.isMark "#" && d.isFunctionLike && (d.parameterIndex? next).isSome then
      match argumentAt actuals ((d.parameterIndex? next).getD 0) with
      | .error fault => .error fault
      | .ok argument =>
        checkedFill d actuals expandArgument rest (w.emit [stringize argument t.spaced])
    else if t.isMark "##" then
      match checkedOperand d actuals next with
      | .error fault => .error fault
      | .ok right =>
        match w.checkedGlue right with
        | .error fault => .error fault
        | .ok w => checkedFill d actuals expandArgument rest w
    else
      match d.parameterIndex? t with
      | none => checkedFill d actuals expandArgument (next :: rest) (w.emit [.plain t])
      | some i =>
        match argumentAt actuals i with
        | .error fault => .error fault
        | .ok argument =>
          if next.isMark "##" then
            if argument.isEmpty then
              match rest with
              | [] => .ok w
              | after :: rest =>
                match d.parameterIndex? after with
                | none => checkedFill d actuals expandArgument (after :: rest) w
                | some j =>
                  match argumentAt actuals j with
                  | .error fault => .error fault
                  | .ok argument =>
                    checkedFill d actuals expandArgument rest
                      (w.emit (Painted.respace t.spaced argument))
            else
              checkedFill d actuals expandArgument (next :: rest)
                (w.emit (Painted.respace t.spaced argument))
          else
            match w.checkedExpansion expandArgument actuals i with
            | .error fault => .error fault
            | .ok (tokens, w) =>
              checkedFill d actuals expandArgument (next :: rest)
                (w.emit (Painted.respace t.spaced tokens))

/-- An argument that is there is found. -/
theorem argumentAt_of_lt {actuals : List (List Painted)} {i : Nat} (h : i < actuals.length) :
    argumentAt actuals i = .ok (actuals.getD i []) := by
  simp [argumentAt, h]

section Bounds

variable {d : Definition} {actuals : List (List Painted)} {expandArgument : ExpandArgument}

theorem checkedExpansion_eq {i : Nat} (hi : i < actuals.length) (w : Walk) :
    w.checkedExpansion (fun argument steps => (expandArgument argument steps).mapError .error)
        actuals i =
      (w.expansion expandArgument actuals i).mapError .error := by
  rw [Walk.checkedExpansion, Walk.expansion, argumentAt_of_lt hi]
  simp only
  cases w.expanded.lookup i with
  | some tokens => rfl
  | none =>
      simp only
      cases expandArgument (actuals.getD i []) w.steps <;> rfl

/-- **A walk over bound arguments finds them all**: looking at the positions first changes
nothing. -/
theorem checkedFill_eq (hactuals : actuals.length = d.slotCount) (body : List Token) (w : Walk) :
    checkedFill d actuals (fun argument steps => (expandArgument argument steps).mapError .error)
        body w =
      (fill d actuals expandArgument body w).mapError .error := by
  have hbound : ∀ {t : Token} {i : Nat}, d.parameterIndex? t = some i → i < actuals.length :=
    fun hi => hactuals ▸ d.parameterIndex?_lt hi
  have hthere : ∀ {t : Token} {i : Nat}, d.parameterIndex? t = some i →
      argumentAt actuals i = .ok (actuals.getD i []) := fun hi => argumentAt_of_lt (hbound hi)
  have hexpands : ∀ {t : Token} {i : Nat} (w : Walk), d.parameterIndex? t = some i →
      w.checkedExpansion (fun argument steps => (expandArgument argument steps).mapError .error)
          actuals i =
        (w.expansion expandArgument actuals i).mapError .error :=
    fun w hi => checkedExpansion_eq (hbound hi) w
  have hoperand : ∀ t, checkedOperand d actuals t = .ok (rightOperand d actuals t) := by
    intro t
    unfold checkedOperand rightOperand
    cases ht : d.parameterIndex? t with
    | none => rfl
    | some i => exact hthere ht
  fun_induction fill d actuals expandArgument body w with
  | case1 w => rfl
  | case2 t w ht => rw [checkedFill, ht]; rfl
  | case3 t w i ht e hexpansion =>
      rw [checkedFill, ht]
      simp only [hexpands w ht]
      rw [hexpansion]
      rfl
  | case4 t w i ht tokens w' hexpansion =>
      rw [checkedFill, ht]
      simp only [hexpands w ht]
      rw [hexpansion]
      rfl
  | case5 t next rest w hstringize argument ih =>
      obtain ⟨i, hi⟩ := Option.isSome_iff_exists.1 (Bool.and_eq_true_iff.1 hstringize).2
      rw [checkedFill.eq_def, ← ih]
      simp only [if_pos hstringize]
      simp only [argument, hi, Option.getD_some, hthere hi]
  | case6 t next rest w hstringize hpaste right e hfails =>
      change paste w.out (rightOperand d actuals next) = _ at hfails
      rw [checkedFill.eq_def]
      simp only [if_neg hstringize, if_pos hpaste, hoperand next, Walk.checkedGlue, hfails]
      rfl
  | case7 t next rest w hstringize hpaste right out hglued ih =>
      change paste w.out (rightOperand d actuals next) = _ at hglued
      rw [checkedFill.eq_def]
      simp only [if_neg hstringize, if_pos hpaste, hoperand next, Walk.checkedGlue, hglued]
      exact ih
  | case8 t next rest w hstringize hpaste ht ih =>
      rw [checkedFill.eq_def]
      simp only [if_neg hstringize, if_neg hpaste, ht]
      exact ih
  | case9 t next w hstringize hpaste i ht hnext argument hempty =>
      simp only [argument] at hempty
      rw [checkedFill.eq_def]
      simp only [if_neg hstringize, if_neg hpaste, ht, hthere ht, if_pos hnext, if_pos hempty]
      rfl
  | case10 t next w hstringize hpaste i ht hnext argument hempty after rest hafter ih =>
      simp only [argument] at hempty
      rw [checkedFill.eq_def]
      simp only [if_neg hstringize, if_neg hpaste, ht, hthere ht, if_pos hnext, if_pos hempty,
        hafter]
      exact ih
  | case11 t next w hstringize hpaste i ht hnext argument hempty after rest j hafter ih =>
      simp only [argument] at hempty
      rw [checkedFill.eq_def]
      simp only [if_neg hstringize, if_neg hpaste, ht, hthere ht, if_pos hnext, if_pos hempty,
        hafter, hthere hafter]
      exact ih
  | case12 t next rest w hstringize hpaste i ht hnext argument hempty ih =>
      simp only [argument] at hempty
      rw [checkedFill.eq_def]
      simp only [if_neg hstringize, if_neg hpaste, ht, hthere ht, if_pos hnext, if_neg hempty]
      exact ih
  | case13 t next rest w hstringize hpaste i ht hnext e hexpansion =>
      rw [checkedFill.eq_def]
      simp only [if_neg hstringize, if_neg hpaste, ht, hthere ht, if_neg hnext, hexpands w ht]
      rw [hexpansion]
      rfl
  | case14 t next rest w hstringize hpaste i ht hnext tokens w' hexpansion ih =>
      rw [checkedFill.eq_def]
      simp only [if_neg hstringize, if_neg hpaste, ht, hthere ht, if_neg hnext, hexpands w ht]
      rw [hexpansion]
      exact ih

end Bounds

end Substitution

open Substitution (Fault CheckedExpand checkedFill checkedFill_eq)

/-- The replacement list of a definition with the arguments of a call filled in, whose positions
are looked at first. -/
def Definition.checkedReplacement (d : Definition) (actuals : List (List Painted))
    (expandArgument : CheckedExpand) (hidden : HideSet) (steps : Nat) :
    Except Fault (List Painted × Nat) :=
  match checkedFill d actuals expandArgument d.body ⟨[], [], steps⟩ with
  | .error fault => .error fault
  | .ok w => .ok (w.out.reverse.map (Painted.hide hidden), w.steps)

theorem Definition.checkedReplacement_eq {d : Definition} {arguments actuals : List (List Painted)}
    (hactuals : d.bind arguments = .ok actuals) (expandArgument : Substitution.ExpandArgument)
    (hidden : HideSet) (steps : Nat) :
    d.checkedReplacement actuals
        (fun argument steps => (expandArgument argument steps).mapError .error) hidden steps =
      (d.replacement actuals expandArgument hidden steps).mapError .error := by
  rw [checkedReplacement, replacement, checkedFill_eq (length_bind hactuals)]
  cases Substitution.fill d actuals expandArgument d.body ⟨[], [], steps⟩ <;> rfl

/-! ### Scans that look at their positions -/

namespace Scan

/-- Scans a text, with the positions of every substitution looked at first. -/
def checkedRun (table : MacroTable) (limits : Limits) (supply depth steps : Nat)
    (out text : List Painted) : Except Fault (List Painted × Nat) :=
  match advance table out text with
  | (out, .finished) => .ok (out.reverse, steps)
  | (_, .unterminated d) => .error (.error (.unterminatedInvocation d.name))
  | (out, .call c) =>
    match supply with
    | 0 => .error (.error (.stepLimit limits.steps))
    | supply + 1 =>
      if limits.steps ≤ steps then .error (.error (.stepLimit limits.steps))
      else
        match c.definition.bind c.arguments with
        | .error e => .error (.error e)
        | .ok actuals =>
          let expandArgument : CheckedExpand := fun argument steps =>
            if limits.depth ≤ depth then .error (.error (.depthLimit limits.depth))
            else checkedRun table limits supply (depth + 1) steps [] argument
          match c.definition.checkedReplacement actuals expandArgument c.hidden (steps + 1) with
          | .error fault => .error fault
          | .ok (replacement, steps) =>
            checkedRun table limits supply depth steps out
              (Painted.respace c.token.spaced replacement ++ c.rest)

/-- **A scan finds every argument that it looks up.** -/
theorem checkedRun_eq (table : MacroTable) (limits : Limits) (supply depth steps : Nat)
    (out text : List Painted) :
    checkedRun table limits supply depth steps out text =
      (run table limits supply depth steps out text).mapError .error := by
  induction supply generalizing depth steps out text with
  | zero =>
      rw [checkedRun.eq_def, run.eq_def]
      rcases advance table out text with ⟨out', _ | c | d⟩ <;> rfl
  | succ supply ih =>
      rw [checkedRun.eq_def, run.eq_def]
      rcases advance table out text with ⟨out', _ | c | d⟩
      · rfl
      · simp only
        split
        · rfl
        · cases hactuals : c.definition.bind c.arguments with
          | error e => rfl
          | ok actuals =>
              have harguments : (fun argument steps =>
                  if limits.depth ≤ depth then .error (.error (.depthLimit limits.depth))
                  else checkedRun table limits supply (depth + 1) steps [] argument) =
                fun argument steps =>
                  (scanArgument table limits supply depth argument steps).mapError
                    Fault.error := by
                funext argument steps
                rw [scanArgument]
                split
                · rfl
                · exact ih (depth + 1) steps [] argument
              have hscan : (fun argument steps =>
                  if limits.depth ≤ depth then .error (.depthLimit limits.depth)
                  else run table limits supply (depth + 1) steps [] argument) =
                scanArgument table limits supply depth := rfl
              simp only [harguments, hscan, Definition.checkedReplacement_eq hactuals]
              cases c.definition.replacement actuals (scanArgument table limits supply depth)
                  c.hidden (steps + 1) with
              | error e => rfl
              | ok r => exact ih depth r.2 out' _
      · rfl

end Scan

/-- Expands a text, with the positions of every substitution looked at first. -/
def MacroTable.checkedExpand (table : MacroTable) (limits : Limits) (text : String) :
    Except Fault Expansion :=
  match Token.lex text with
  | .error e => .error (.error e)
  | .ok tokens =>
    match Scan.checkedRun table limits limits.steps 0 0 [] (tokens.map Painted.plain) with
    | .error fault => .error fault
    | .ok (out, steps) => .ok ⟨out.map Painted.toToken, steps⟩

/-- **An expansion finds every argument that it looks up.** -/
theorem MacroTable.checkedExpand_eq (table : MacroTable) (limits : Limits) (text : String) :
    table.checkedExpand limits text = (table.expand limits text).mapError .error := by
  rw [checkedExpand, expand]
  cases Token.lex text with
  | error e => rfl
  | ok tokens =>
      simp only [expandTokens, Scan.checkedRun_eq]
      cases Scan.run table limits limits.steps 0 0 [] (tokens.map Painted.plain) <;> rfl

/-! ### Whole sessions -/

namespace Session

/-- **What every session keeps**: each definition stands under its own name and is well-formed, a
call of it binds as many arguments as it has slots, among which the positions of its parameters
are, and so an expansion looks up no argument that is not there. -/
theorem wellFormed_inRange (steps : List Step) :
    (∀ (name : String) (d : Definition), (run steps).table[name]? = some d →
      d.name = name ∧ d.WellFormed ∧
        ∀ arguments actuals, d.bind arguments = .ok actuals →
          actuals.length = (d.parameters.getD []).length + d.variadic.toNat ∧
            ∀ t i, d.parameterIndex? t = some i → i < actuals.length) ∧
      ∀ text, (run steps).table.checkedExpand (run steps).limits text =
        ((run steps).table.expand (run steps).limits text).mapError .error := by
  refine ⟨fun name d hd => ?_, fun text => MacroTable.checkedExpand_eq _ _ text⟩
  obtain ⟨hname, hread⟩ := (reachable_run steps).filed name d hd
  have hformed := Definition.wellFormed_of_isRead hread
  refine ⟨hname, hformed, fun arguments actuals hactuals => ?_⟩
  have hlength := Definition.length_bind hactuals
  refine ⟨?_, fun t i hi => hlength ▸ d.parameterIndex?_lt hi⟩
  rw [hlength, Definition.slotCount]
  cases hparameters : d.parameters with
  | some names => rfl
  | none =>
      have hvariadic : d.variadic = false := by
        by_contra hne
        have hfunction := hformed.variadic (by simpa using hne)
        simp [Definition.isFunctionLike, hparameters] at hfunction
      rw [hvariadic]
      rfl

/-- A session whose source goes wrong at its second line: what the first line defines stays, and a
call of it with three arguments binds two token lists. -/
theorem wellFormed_inRange_failed :
    ∃ d : Definition,
      (run [.load "#define F(a,...) #a\n#define (", .limit ⟨5, 2⟩]).table["F"]? = some d ∧
        d.WellFormed ∧ d.bind [[], [], []] = .ok [[], [Invocation.comma]] ∧
        d.parameterIndex? (.name "__VA_ARGS__") = some 1 ∧
        1 < [[], [Invocation.comma]].length := by
  have hd : (run [.load "#define F(a,...) #a\n#define (", .limit ⟨5, 2⟩]).table["F"]? =
      some ⟨"F", some ["a"], true, [.mark "#", .name "a"]⟩ := by
    change (MacroTable.empty.load _).table["F"]? = _
    rw [MacroTable.load_eq]
    decide +kernel
  obtain ⟨-, hformed, hbound⟩ := (wellFormed_inRange _).1 "F" _ hd
  refine ⟨_, hd, hformed, rfl, rfl, ?_⟩
  exact (hbound [[], [], []] [[], [Invocation.comma]] rfl).2 (.name "__VA_ARGS__") 1 rfl

end Session

end VariadicMacros
