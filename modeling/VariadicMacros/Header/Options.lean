/-
**Options of a header, and which of them are accepted.**

A header is generated for a bound on the number of variadic arguments, with a common beginning for
the names of its macros and a name for its include guard.

Main definitions:

* `VariadicMacros.Options` with `name`, `deferLevels` and `exceedsPortableLimit`;
* `VariadicMacros.HeaderError` — why a header cannot be generated;
* `VariadicMacros.Options.check` — accepts the options for which a header makes sense.

Main results:

* `VariadicMacros.Options.check_eq_ok_iff` — which options are accepted.
-/

import VariadicMacros.Text.Character

set_option autoImplicit false

namespace VariadicMacros

/-- The largest bound; the tables of a header grow with its square. -/
def maximalBound : Nat := 1024

/-- The number of macro arguments that every preprocessor accepts. -/
def portableArgumentLimit : Nat := 127

/-- What a header is generated for. -/
structure Options where
  /-- The largest number of variadic arguments. -/
  bound : Nat := 20
  /-- The common beginning of the macro names. -/
  stem : String := "ZEN_"
  /-- The macro of the include guard. -/
  guard : String := "ZEN_MACRO_H"
  deriving DecidableEq, Repr

/-- The options that have to be identifiers. -/
inductive IdentifierOption
  | stem
  | guard
  deriving DecidableEq, Repr

/-- The word for an option in messages. -/
def IdentifierOption.noun : IdentifierOption → String
  | .stem => "prefix"
  | .guard => "guard"

/-- The causes for which a header is not generated. -/
inductive HeaderError
  /-- The bound is zero or too large. -/
  | invalidBound (bound : Nat)
  /-- An option is not an identifier. -/
  | invalidIdentifier (option : IdentifierOption) (value : String)
  /-- The text does not fit where it is written. -/
  | noRoom
  deriving DecidableEq, Repr

/-- The wording of each cause. -/
def HeaderError.message : HeaderError → String
  | .invalidBound bound =>
      "invalid arity bound: " ++ toString bound ++ " (must be between 1 and " ++
        toString maximalBound ++ ")"
  | .invalidIdentifier option value =>
      "invalid " ++ option.noun ++ ": '" ++ value ++ "' is not a valid C identifier"
  | .noRoom => "format error: an error occurred when formatting an argument"

namespace Options

/-- The macro name with a given ending. -/
def name (o : Options) (suffix : String) : String := o.stem ++ suffix

/-- The highest level of deferral; there is always one. -/
def deferLevels (o : Options) : Nat := max (o.bound - 1) 1

/-- Whether counting arguments may pass more of them than every preprocessor accepts. -/
def exceedsPortableLimit (o : Options) : Bool := portableArgumentLimit < 2 * o.bound

/-- Accepts bounds from one to the maximum, an empty stem or one that is an identifier, and a
guard that is an identifier. -/
def check (o : Options) : Except HeaderError Unit :=
  if o.bound = 0 ∨ maximalBound < o.bound then .error (.invalidBound o.bound)
  else if o.stem ≠ "" ∧ Text.isIdentifier o.stem.toList = false then
    .error (.invalidIdentifier .stem o.stem)
  else if Text.isIdentifier o.guard.toList = false then .error (.invalidIdentifier .guard o.guard)
  else .ok ()

/-- Which options are accepted. -/
theorem check_eq_ok_iff (o : Options) :
    o.check = .ok () ↔
      1 ≤ o.bound ∧ o.bound ≤ maximalBound ∧
        (o.stem = "" ∨ Text.isIdentifier o.stem.toList = true) ∧
        Text.isIdentifier o.guard.toList = true := by
  unfold check
  by_cases hb : o.bound = 0 ∨ maximalBound < o.bound
  · simp only [hb, if_true, reduceCtorEq, false_iff, not_and]
    omega
  · have hb₁ : 1 ≤ o.bound := by omega
    have hb₂ : o.bound ≤ maximalBound := by omega
    simp only [hb, if_false, hb₁, hb₂, true_and]
    by_cases hs : o.stem = ""
    · simp only [hs, ne_eq, not_true_eq_false, false_and, if_false, true_or, true_and]
      cases Text.isIdentifier o.guard.toList <;> simp
    · cases Text.isIdentifier o.stem.toList <;>
        cases Text.isIdentifier o.guard.toList <;> simp [hs]

end Options

end VariadicMacros
