/-
**Filling in a replacement list: stringizing, pasting, and expanded arguments.**

The replacement list of a definition is walked from left to right.  `#` before a parameter makes a
string literal of the argument; `##` glues the token before it to the token after it; a parameter
next to `##` stands for its argument as written, and every other parameter stands for its argument
fully expanded, which is done when the parameter is first met and only once.

How an argument is expanded is a parameter of this module: it is given the number of invocations
counted so far and returns the count after it.

Main definitions:

* `VariadicMacros.Substitution.stringize` — the literal that `#` makes;
* `VariadicMacros.Substitution.paste` — what `##` does to the tokens before it;
* `VariadicMacros.Substitution.fill` — the walk;
* `VariadicMacros.Definition.replacement` — the filled-in replacement list of a definition.
-/

import VariadicMacros.Definition
import VariadicMacros.MacroError
import VariadicMacros.Painted
import VariadicMacros.Token.Lexer

set_option autoImplicit false

namespace VariadicMacros

namespace Substitution

/-! ### Stringizing -/

/-- The characters of a literal inside another one: quotes and backslashes gain a backslash. -/
def escapeLiteral : List Char → List Char
  | [] => []
  | c :: cs => if c = '"' ∨ c = '\\' then '\\' :: c :: escapeLiteral cs else c :: escapeLiteral cs

/-- The spelling of a token inside a string literal. -/
def quotedText (t : Token) : String :=
  if t.kind = .literal then String.ofList (escapeLiteral t.text.toList) else t.text

/-- The tokens with their spellings as they stand inside a string literal. -/
def quotedTokens (ts : List Token) : List Token := ts.map fun t => { t with text := quotedText t }

/-- The string literal that spells an argument. -/
def stringize (argument : List Painted) (spaced : Bool) : Painted :=
  .plain ⟨.literal,
    Token.spellOnto "\"" (Token.respace false (quotedTokens (argument.map Painted.toToken))) ++ "\"",
    spaced⟩

/-! ### Pasting -/

/-- The token that two tokens join into, if their spellings together are one token.  It hides
what both of them hide. -/
def join? (left right : Painted) : Option Painted :=
  (Token.ofText? (left.text ++ right.text)).map fun t =>
    ⟨{ t with spaced := left.spaced }, left.hidden.inter right.hidden⟩

/-- Glues the last token of `out`, which holds the tokens so far with the last one first, to the
first token of `right`.  Where one side is missing the other is taken as it is. -/
def paste (out right : List Painted) : Except MacroError (List Painted) :=
  match right, out with
  | [], _ => .ok out
  | _ :: _, [] => .ok right.reverse
  | r :: right, l :: out =>
    match join? l r with
    | some glued => .ok (right.reverse ++ glued :: out)
    | none => .error (.invalidPaste l.text r.text)

/-! ### The walk -/

/-- Expands an argument, given the invocations counted so far. -/
abbrev ExpandArgument := List Painted → Nat → Except MacroError (List Painted × Nat)

/-- The state of a walk over a replacement list. -/
structure Walk where
  /-- The tokens so far, the last one first. -/
  out : List Painted
  /-- The arguments expanded so far, by the position of their parameter. -/
  expanded : List (Nat × List Painted)
  /-- The invocations counted so far. -/
  steps : Nat
  deriving Repr

/-- Adds tokens to what a walk has produced. -/
def Walk.emit (w : Walk) (tokens : List Painted) : Walk :=
  { w with out := tokens.reverse ++ w.out }

/-- The expansion of the argument at position `i`: remembered, or found now. -/
def Walk.expansion (expandArgument : ExpandArgument) (actuals : List (List Painted)) (i : Nat)
    (w : Walk) : Except MacroError (List Painted × Walk) :=
  match w.expanded.lookup i with
  | some tokens => .ok (tokens, w)
  | none =>
    match expandArgument (actuals.getD i []) w.steps with
    | .error e => .error e
    | .ok (tokens, steps) =>
      .ok (tokens, { w with expanded := (i, tokens) :: w.expanded, steps := steps })

/-- Walks over a replacement list. -/
def fill (d : Definition) (actuals : List (List Painted)) (expandArgument : ExpandArgument) :
    List Token → Walk → Except MacroError Walk
  | [], w => .ok w
  | t :: [], w =>
    match d.parameterIndex? t with
    | none => .ok (w.emit [.plain t])
    | some i =>
      match w.expansion expandArgument actuals i with
      | .error e => .error e
      | .ok (tokens, w) => .ok (w.emit (Painted.respace t.spaced tokens))
  | t :: next :: rest, w =>
    if t.isMark "#" && d.isFunctionLike && (d.parameterIndex? next).isSome then
      let argument := actuals.getD ((d.parameterIndex? next).getD 0) []
      fill d actuals expandArgument rest (w.emit [stringize argument t.spaced])
    else if t.isMark "##" then
      let right := match d.parameterIndex? next with
        | some i => actuals.getD i []
        | none => [.plain next]
      match paste w.out right with
      | .error e => .error e
      | .ok out => fill d actuals expandArgument rest { w with out := out }
    else
      match d.parameterIndex? t with
      | none => fill d actuals expandArgument (next :: rest) (w.emit [.plain t])
      | some i =>
        if next.isMark "##" then
          let argument := actuals.getD i []
          if argument.isEmpty then
            match rest with
            | [] => .ok w
            | after :: rest =>
              match d.parameterIndex? after with
              | none => fill d actuals expandArgument (after :: rest) w
              | some j =>
                fill d actuals expandArgument rest
                  (w.emit (Painted.respace t.spaced (actuals.getD j [])))
          else
            fill d actuals expandArgument (next :: rest)
              (w.emit (Painted.respace t.spaced argument))
        else
          match w.expansion expandArgument actuals i with
          | .error e => .error e
          | .ok (tokens, w) =>
            fill d actuals expandArgument (next :: rest)
              (w.emit (Painted.respace t.spaced tokens))

end Substitution

/-- The replacement list of a definition with the arguments of a call filled in, together with
the invocations counted after it.  Its tokens hide the names in `hidden`. -/
def Definition.replacement (d : Definition) (actuals : List (List Painted))
    (expandArgument : Substitution.ExpandArgument) (hidden : HideSet) (steps : Nat) :
    Except MacroError (List Painted × Nat) :=
  match Substitution.fill d actuals expandArgument d.body ⟨[], [], steps⟩ with
  | .error e => .error e
  | .ok w => .ok (w.out.reverse.map (Painted.hide hidden), w.steps)

end VariadicMacros
