/-
**Reading macro definitions in their two written forms.**

A definition is read from the tokens that follow `#define`: a name, for a function-like macro a
parameter list whose parenthesis directly follows the name, and the replacement list.  The
operators `#` and `##` are checked here once, so that whoever uses a definition can rely on them.

Main definitions:

* `VariadicMacros.Definition.ofTokens` — reads the tokens after `#define`;
* `VariadicMacros.Definition.ofCommandLine` — reads `NAME`, `NAME=BODY` or `NAME(parameters)=BODY`.

Main results:

* `VariadicMacros.Definition.splitAtEquals_append` — nothing but the equals sign is lost when a
  definition is split.
-/

import VariadicMacros.Definition
import VariadicMacros.Token.Lexer

set_option autoImplicit false

namespace VariadicMacros.Definition

/-! ### Parameter lists -/

/-- A parameter list and the tokens after it. -/
structure ParameterList where
  names : List String
  variadic : Bool
  rest : List Token
  deriving DecidableEq, Repr

/-- Reads the parameters of the macro `name` after the opening parenthesis or a comma; `seen`
holds the parameters before, the last one first. -/
def readParameters (name : String) (seen : List String) :
    List Token → Except DefinitionFault ParameterList
  | [] => .error (.unclosedParameters name)
  | t :: rest =>
    if t.isMark ")" && seen.isEmpty then .ok ⟨[], false, rest⟩
    else if t.isMark "..." then
      match rest with
      | close :: rest =>
        if close.isMark ")" then .ok ⟨seen.reverse, true, rest⟩
        else .error (.ellipsisNotLast name)
      | [] => .error (.ellipsisNotLast name)
    else if t.kind = .identifier ∧ t.text ≠ variadicName then
      if seen.contains t.text then .error (.duplicateParameter t.text name)
      else
        match rest with
        | next :: rest =>
          if next.isMark "," then readParameters name (t.text :: seen) rest
          else if next.isMark ")" then .ok ⟨(t.text :: seen).reverse, false, rest⟩
          else .error (.separatorExpected name)
        | [] => .error (.separatorExpected name)
    else .error (.unexpectedToken t.text name)

/-- Reads the name and the parameters of a definition and takes what follows as its replacement
list, whose first token loses its space mark. -/
def readHead : List Token → Except DefinitionFault Definition
  | [] => .error .missingName
  | t :: rest =>
    if t.kind = .identifier then
      match rest with
      | [] => .ok ⟨t.text, none, false, []⟩
      | next :: after =>
        if next.isMark "(" && !next.spaced then
          match readParameters t.text [] after with
          | .error fault => .error fault
          | .ok list => .ok ⟨t.text, some list.names, list.variadic, Token.respace false list.rest⟩
        else .ok ⟨t.text, none, false, Token.respace false rest⟩
    else .error (.nameExpected t.text)

/-! ### Operators -/

/-- Whether `##` stands at either end of a replacement list. -/
def hasDanglingPaste (body : List Token) : Bool :=
  body.head?.any (·.isMark "##") || body.getLast?.any (·.isMark "##")

/-- Whether some `#` of a replacement list is not directly followed by a parameter of `d`. -/
def hasStrayStringize (d : Definition) : List Token → Bool
  | [] => false
  | t :: rest =>
    if t.isMark "#" && !rest.head?.any (fun next => (d.parameterIndex? next).isSome) then true
    else hasStrayStringize d rest

/-- Accepts a definition whose operators have their operands; `#` is an operator in function-like
macros only. -/
def checkOperators (d : Definition) : Except MacroError Definition :=
  if hasDanglingPaste d.body then .error (.danglingPaste d.name)
  else if d.isFunctionLike && hasStrayStringize d d.body then .error (.strayStringize d.name)
  else .ok d

/-! ### The two written forms -/

/-- Reads the tokens after `#define`. -/
def ofTokens (tokens : List Token) : Except MacroError Definition :=
  match readHead tokens with
  | .error fault => .error (.malformedDefinition fault)
  | .ok d => checkOperators d

/-- The texts before and after the first equals sign, if there is one. -/
def splitAtEquals (cs : List Char) : List Char × Option (List Char) :=
  match cs.dropWhile (· != '=') with
  | [] => (cs, none)
  | _ :: body => (cs.takeWhile (· != '='), some body)

/-- The equals sign of `NAME=BODY` becomes a space, and a bare name stands for `1`. -/
def directiveText (definition : List Char) : List Char :=
  match splitAtEquals definition with
  | (head, some body) => head ++ ' ' :: body
  | (head, none) => head ++ [' ', '1']

/-- Reads a definition as it is given on a command line. -/
def ofCommandLine (definition : String) : Except MacroError Definition :=
  match Token.lexChars (directiveText definition.toList) with
  | .error e => .error e
  | .ok tokens => ofTokens tokens

/-- Only the equals sign is lost when a definition is split. -/
theorem splitAtEquals_append {cs head body : List Char}
    (h : splitAtEquals cs = (head, some body)) : head ++ '=' :: body = cs := by
  unfold splitAtEquals at h
  split at h
  · cases h
  · next c rest hd =>
    cases h
    have hc : c = '=' := by
      have := List.head?_dropWhile_not (· != '=') cs
      simpa [hd] using this
    rw [hc] at hd
    rw [← hd]
    exact List.takeWhile_append_dropWhile

end VariadicMacros.Definition
