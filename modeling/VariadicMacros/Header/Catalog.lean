/-
**The catalog of a header: the macros that its users call.**

The macros of a header that its users are meant to call, with their parameters and a summary each.

Main definitions:

* `VariadicMacros.Signature` with `VariadicMacros.Signature.display`;
* `VariadicMacros.Options.catalog`.

Main results:

* `VariadicMacros.Options.length_catalog` — how many macros there are.
-/

import VariadicMacros.Header.Options

set_option autoImplicit false

namespace VariadicMacros

/-- A macro that users of a header call. -/
structure Signature where
  name : String
  /-- The parameters, an ellipsis among them as `...`; none for an object-like macro. -/
  parameters : Option (List String)
  summary : String
  deriving DecidableEq, Repr

/-- The name with the parameters in parentheses. -/
def Signature.display (s : Signature) : String :=
  match s.parameters with
  | none => s.name
  | some names => s.name ++ "(" ++ String.intercalate ", " names ++ ")"

namespace Options

/-- The entry of a function-like macro. -/
def listed (o : Options) (suffix : String) (parameters : List String) (summary : String) :
    Signature :=
  ⟨o.name suffix, some parameters, summary⟩

/-- The entry of a level of deferral. -/
def listedLevel (o : Options) (level : Nat) : Signature :=
  o.listed ("DEFER_" ++ toString level) ["..."]
    ("delay expansion by " ++ toString level ++ " rescan(s)")

/-- The macros that users call, in the order of the header. -/
def catalog (o : Options) : List Signature :=
  [o.listed "VA_LENGTH" ["..."] ("number of arguments, 1 to " ++ toString o.bound),
    o.listed "EMPTY" [] "expands to nothing",
    o.listed "DEFER" ["..."] "delay expansion by one rescan"] ++
  (List.range' 1 o.deferLevels).map o.listedLevel ++
  [o.listed "DEFER_N" ["n", "..."] "delay expansion by n rescans",
    o.listed "EXPAND" ["x"] "expand a single argument",
    o.listed "EVAL" ["..."] "force one extra rescan",
    o.listed "CONCAT" ["a", "b"] "paste two expanded tokens",
    o.listed "STATIC_ASSERT" ["stmt"] "compile-time assertion",
    o.listed "UNUSED" ["x"] "suppress unused warnings",
    ⟨o.name "VA_MAX_LENGTH", none, "supported arity (" ++ toString o.bound ++ ")"⟩,
    o.listed "REPEAT_WITH" ["s", "n", "m", "..."] "n applications of m joined by s",
    o.listed "REPEAT" ["n", "m", "..."] "n applications of m",
    o.listed "ENUM" ["n", "m", "..."] "n applications of m joined by commas",
    o.listed "GET_VA_ARG" ["n", "..."] ("n-th argument, n below " ++ toString o.bound),
    o.listed "FOR_EACH_WITH" ["s", "m", "..."] "m(index, item) per item joined by s",
    o.listed "FOR_EACH" ["m", "..."] "m(index, item) per item",
    o.listed "FOR_EACH_ENUM" ["m", "..."] "m(index, item) per item joined by commas"]

/-- There is an entry for every level of deferral and seventeen more. -/
theorem length_catalog (o : Options) : o.catalog.length = o.deferLevels + 17 := by
  simp [catalog]

end Options

end VariadicMacros
