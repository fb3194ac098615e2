/-
**What can go wrong with macros, and how it is worded.**

One inductive type of causes for reading definitions and expanding text, with the wording of each
cause in a single function.

Main definitions:

* `VariadicMacros.Unclosed` — what was opened and never closed;
* `VariadicMacros.DefinitionFault` — how the head of a definition can be malformed;
* `VariadicMacros.ArgumentDemand` — how many arguments a function-like macro takes;
* `VariadicMacros.MacroError` — every cause, with `VariadicMacros.MacroError.message`.
-/

set_option autoImplicit false

namespace VariadicMacros

/-- A construct that has to be closed. -/
inductive Unclosed
  | literal
  | comment
  deriving DecidableEq, Repr

/-- The noun used for a construct that was left open. -/
def Unclosed.noun : Unclosed → String
  | .literal => "literal"
  | .comment => "comment"

/-- The ways in which the name or the parameter list of a definition can be malformed. -/
inductive DefinitionFault
  /-- Nothing follows the directive. -/
  | missingName
  /-- The first token is not an identifier. -/
  | nameExpected (found : String)
  /-- The parameter list has no end. -/
  | unclosedParameters (name : String)
  /-- Something other than the closing parenthesis follows the ellipsis. -/
  | ellipsisNotLast (name : String)
  /-- A parameter occurs twice. -/
  | duplicateParameter (parameter name : String)
  /-- A parameter is followed by neither a comma nor the closing parenthesis. -/
  | separatorExpected (name : String)
  /-- A token stands where a parameter should. -/
  | unexpectedToken (found name : String)
  deriving DecidableEq, Repr

/-- The wording of a malformed definition. -/
def DefinitionFault.message : DefinitionFault → String
  | .missingName => "missing macro name"
  | .nameExpected found => "expected a macro name, found '" ++ found ++ "'"
  | .unclosedParameters name => "unterminated parameter list of " ++ name
  | .ellipsisNotLast name => "'...' must end the parameters of " ++ name
  | .duplicateParameter parameter name => "duplicate parameter '" ++ parameter ++ "' in " ++ name
  | .separatorExpected name => "expected ',' or ')' in parameters of " ++ name
  | .unexpectedToken found name => "unexpected '" ++ found ++ "' in parameters of " ++ name

/-- The number of arguments that a function-like macro asks for. -/
inductive ArgumentDemand
  | exactly (count : Nat)
  | atLeast (count : Nat)
  deriving DecidableEq, Repr

/-- The wording of a demand: a bare numeral when it is exact. -/
def ArgumentDemand.text : ArgumentDemand → String
  | .exactly count => toString count
  | .atLeast count => "at least " ++ toString count

/-- Whether `found` arguments meet the demand. -/
def ArgumentDemand.accepts : ArgumentDemand → Nat → Bool
  | .exactly count, found => found == count
  | .atLeast count, found => count ≤ found

/-- The causes for which reading definitions or expanding text fails. -/
inductive MacroError
  /-- A literal or a comment starts at a byte offset and has no end. -/
  | unterminated (what : Unclosed) (offset : Nat)
  /-- The character at a byte offset begins no token. -/
  | unexpectedCharacter (character : Char) (offset : Nat)
  /-- The name or the parameter list of a definition is wrong. -/
  | malformedDefinition (fault : DefinitionFault)
  /-- A `#` in a function-like macro is not followed by a parameter. -/
  | strayStringize (name : String)
  /-- A replacement list begins or ends with `##`. -/
  | danglingPaste (name : String)
  /-- Two spellings do not join into one token. -/
  | invalidPaste (left right : String)
  /-- A call has the wrong number of arguments. -/
  | argumentCount (name : String) (expected : ArgumentDemand) (found : Nat)
  /-- The text ends inside the argument list of a call. -/
  | unterminatedInvocation (name : String)
  /-- More macro invocations than allowed. -/
  | stepLimit (limit : Nat)
  /-- Arguments nested deeper than allowed. -/
  | depthLimit (limit : Nat)
  deriving DecidableEq, Repr

/-- The wording of each cause. -/
def MacroError.message : MacroError → String
  | .unterminated what offset =>
      "unterminated " ++ what.noun ++ " starting at byte " ++ toString offset
  | .unexpectedCharacter c offset =>
      "unexpected character '" ++ c.toString ++ "' at byte " ++ toString offset
  | .malformedDefinition fault => "malformed #define: " ++ fault.message
  | .strayStringize name => "'#' in " ++ name ++ " is not followed by a parameter"
  | .danglingPaste name => "'##' cannot appear at either end of " ++ name
  | .invalidPaste left right =>
      "pasting '" ++ left ++ "' and '" ++ right ++ "' does not give a valid token"
  | .argumentCount name expected found =>
      name ++ " expects " ++ expected.text ++ " argument(s), got " ++ toString found
  | .unterminatedInvocation name => "unterminated argument list for " ++ name
  | .stepLimit limit => "expansion exceeded " ++ toString limit ++ " macro invocations"
  | .depthLimit limit =>
      "argument expansion nested deeper than " ++ toString limit ++ " levels"

end VariadicMacros
