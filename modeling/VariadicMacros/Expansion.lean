/-
**Macro expansion with hide sets.**

A text is expanded by a scan from left to right.  A name of a macro that its token may invoke is
replaced, together with its arguments if the macro takes any, by the filled-in replacement list,
and the scan goes on at the start of the replacement, so that a call may begin in a replacement
and end in the text after it.  Arguments are expanded by scans of their own.

A token produced by a call of a function-like macro hides the macro's name and those names that
are hidden from both the name and the closing parenthesis of the call; a token produced by an
object-like macro hides the macro's name and the names hidden from the token it replaces.

The number of invocations and the nesting of argument scans are limited.  The scan recurses on a
supply of invocations that is never smaller than the number still allowed, and so it ends.

Main definitions:

* `VariadicMacros.Limits`;
* `VariadicMacros.Scan.advance` — the scan up to the next invocation;
* `VariadicMacros.Scan.run` — the whole scan;
* `VariadicMacros.MacroTable.expand` — expands a text;
* `VariadicMacros.Expansion` with `text` and `agreesWith`.
-/

import VariadicMacros.Invocation
import VariadicMacros.MacroTable
import VariadicMacros.Substitution

set_option autoImplicit false

namespace VariadicMacros

/-- How far an expansion may go. -/
structure Limits where
  /-- The number of macro invocations in one expansion. -/
  steps : Nat := 200000
  /-- The nesting of argument scans. -/
  depth : Nat := 256
  deriving DecidableEq, Repr

namespace Scan

/-! ### Finding the next invocation -/

/-- An invocation and what stands after it. -/
structure Call where
  /-- The token that names the macro. -/
  token : Painted
  definition : Definition
  /-- The arguments; none for an object-like macro. -/
  arguments : List (List Painted)
  /-- The names hidden from the tokens of the replacement. -/
  hidden : HideSet
  rest : List Painted
  deriving DecidableEq, Repr

/-- Where a scan stops. -/
inductive Stop
  /-- At the end of the text. -/
  | finished
  /-- At an invocation. -/
  | call (c : Call)
  /-- At a call whose arguments have no end. -/
  | unterminated (d : Definition)
  deriving Repr

/-- The definition that a token invokes: that of its name, unless the name is hidden from it. -/
def definition? (table : MacroTable) (p : Painted) : Option Definition :=
  if p.kind = .identifier && !p.isHidden then table[p.text]? else none

/-- Passes over the tokens that invoke nothing.  `out` holds the tokens passed, the last one
first, and the result holds them with the place where the scan stops. -/
def advance (table : MacroTable) (out : List Painted) : List Painted → List Painted × Stop
  | [] => (out, .finished)
  | p :: rest =>
    match definition? table p with
    | none => advance table (p :: out) rest
    | some d =>
      if d.isFunctionLike then
        match rest with
        | [] => (p :: out, .finished)
        | next :: after =>
          if next.isMark "(" then
            match Invocation.readArguments after with
            | none => (out, .unterminated d)
            | some list =>
              let hidden := (p.hidden.inter list.close.hidden).add d.name
              (out, .call ⟨p, d, list.arguments, hidden, list.rest⟩)
          else advance table (p :: out) (next :: after)
      else (out, .call ⟨p, d, [], HideSet.add d.name p.hidden, rest⟩)

/-! ### The scan -/

/-- Scans a text.  `supply` bounds the invocations of this scan, `depth` is the nesting of the
scan, `steps` the number of invocations so far, and `out` holds the tokens that are done, the last
one first. -/
def run (table : MacroTable) (limits : Limits) (supply depth steps : Nat)
    (out text : List Painted) : Except MacroError (List Painted × Nat) :=
  match advance table out text with
  | (out, .finished) => .ok (out.reverse, steps)
  | (_, .unterminated d) => .error (.unterminatedInvocation d.name)
  | (out, .call c) =>
    match supply with
    | 0 => .error (.stepLimit limits.steps)
    | supply + 1 =>
      if limits.steps ≤ steps then .error (.stepLimit limits.steps)
      else
        match c.definition.bind c.arguments with
        | .error e => .error e
        | .ok actuals =>
          let expandArgument : Substitution.ExpandArgument := fun argument steps =>
            if limits.depth ≤ depth then .error (.depthLimit limits.depth)
            else run table limits supply (depth + 1) steps [] argument
          match c.definition.replacement actuals expandArgument c.hidden (steps + 1) with
          | .error e => .error e
          | .ok (replacement, steps) =>
            run table limits supply depth steps out
              (Painted.respace c.token.spaced replacement ++ c.rest)

end Scan

/-! ### Expanding a text -/

/-- The tokens that a text expands to and the number of invocations it took. -/
structure Expansion where
  tokens : List Token
  steps : Nat
  deriving DecidableEq, Repr

/-- Expands a token list. -/
def MacroTable.expandTokens (table : MacroTable) (limits : Limits) (tokens : List Token) :
    Except MacroError Expansion :=
  match Scan.run table limits limits.steps 0 0 [] (tokens.map Painted.plain) with
  | .error e => .error e
  | .ok (out, steps) => .ok ⟨out.map Painted.toToken, steps⟩

/-- Expands a text. -/
def MacroTable.expand (table : MacroTable) (limits : Limits) (text : String) :
    Except MacroError Expansion :=
  match Token.lex text with
  | .error e => .error e
  | .ok tokens => table.expandTokens limits tokens

namespace Expansion

/-- The text of an expansion. -/
def text (e : Expansion) : String := Token.spell e.tokens

/-- The spellings of the tokens of an expansion. -/
def spellings (e : Expansion) : List String := e.tokens.map Token.text

/-- Whether an expansion has the same spellings as a text, blanks aside. -/
def agreesWith (e : Expansion) (expected : String) : Bool :=
  match Token.lex expected with
  | .error _ => false
  | .ok tokens => tokens.map Token.text == e.spellings

end Expansion

end VariadicMacros
