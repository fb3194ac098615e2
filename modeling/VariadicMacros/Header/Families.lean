/-
**The macros of a header, family by family.**

The macros come in seven families.  A preprocessor can neither recurse nor count, so each family
is unrolled up to the bound of the options: an entry of a table calls no entry of its own table,
except that every level of deferral from two on calls the level below it.

* counting: the caller's arguments are followed by the descending numbers from the bound to one,
  and the macro that receives both picks the number that lands behind its placeholders;
* deferral: `DEFER_k` hides a call behind `k` markers that expand to nothing, so that it takes `k`
  further scans until the call is seen;
* helpers: pasting, a static assertion, and the bound itself;
* repetition and enumeration: entry `i` is the unrolled list of `i` applications;
* selection: entry `i` returns the argument at position `i`;
* composition: the for-each macros, built from all the others.

Main definitions:

* `VariadicMacros.Header.unrolled` — a list of applications;
* `VariadicMacros.Header.Family` and `VariadicMacros.Header.Family.blocks` — the lines of each
  family.

Main results:

* `VariadicMacros.Header.length_numbered`, `VariadicMacros.Header.unrolled_zero`.
-/

import VariadicMacros.Header.Layout
import VariadicMacros.Header.Options

set_option autoImplicit false

namespace VariadicMacros.Header

open Token (name number mark)

/-! ### Pieces of replacement lists -/

/-- The token that stands for the arguments of the ellipsis. -/
def ellipsisArguments : Token := name variadicName

/-- Token lists with commas between them, every comma followed by a space or none. -/
def separated (spaced : Bool) : List (List Token) → List Token
  | [] => []
  | first :: rest => first ++ rest.flatMap fun ts => mark "," :: Token.respace spaced ts

/-- Tokens in parentheses. -/
def parenthesized (ts : List Token) : List Token := mark "(" :: ts ++ [mark ")"]

/-- A call whose commas are followed by no space. -/
def tightCall (f : String) (arguments : List (List Token)) : List Token :=
  name f :: parenthesized (separated false arguments)

/-- A call whose commas are followed by a space each. -/
def looseCall (f : String) (arguments : List (List Token)) : List Token :=
  name f :: parenthesized (separated true arguments)

/-- A list with nothing in it is written as one empty item. -/
def written (items : List String) : List String := if items.isEmpty then [""] else items

/-- The names `stem0`, `stem1`, and so on. -/
def numbered (stem : String) (count : Nat) : List String :=
  (List.range count).map fun i => stem ++ toString i

/-- The numerals from `count` down to one. -/
def descending (count : Nat) : List String :=
  (List.range count).map fun i => toString (count - i)

@[simp] theorem length_numbered (stem : String) (count : Nat) :
    (numbered stem count).length = count := by simp [numbered]

@[simp] theorem length_descending (count : Nat) : (descending count).length = count := by
  simp [descending]

/-! ### Lines -/

/-- The definition of a function-like macro. -/
def function (macroName : String) (parameters : List String) (variadic : Bool)
    (body : List Token) : Definition :=
  ⟨macroName, some parameters, variadic, body⟩

/-- The line of a function-like macro with named parameters only. -/
def fixed (macroName : String) (parameters : List String) (body : List Token) : Line :=
  .define .loose (function macroName parameters false body)

/-- The line of a variadic macro. -/
def variadic (spacing : Spacing) (macroName : String) (parameters : List String)
    (body : List Token) : Line :=
  .define spacing (function macroName parameters true body)

/-! ### Counting -/

/-- The macros that count arguments. -/
def counting (o : Options) : List Block :=
  docs [
    "Expands to the number of arguments passed, from 1 to " ++ toString o.bound ++ ".",
    "",
    "Requires at least one argument. Calling it with none, or with",
    "more than " ++ toString o.bound ++ ", is outside its contract."] ++
  [.line (variadic .tight (o.name "VA_LENGTH") []
      (tightCall (o.name "VA_LENGTH_IMPL")
        [[ellipsisArguments], tightCall (o.name "RSEQ_N") []])),
    .line (variadic .tight (o.name "VA_LENGTH_IMPL") []
      (tightCall (o.name "ARG_N") [[ellipsisArguments]])),
    .line (variadic .tight (o.name "ARG_N") (written (numbered "_" o.bound) ++ ["N"]) [name "N"]),
    .line (fixed (o.name "RSEQ_N") []
      (separated false ((written (descending o.bound)).map fun n => [number n])))]

/-! ### Deferral -/

/-- The line of the deferral of level `level`, for levels from two on. -/
def deferLevel (o : Options) (level : Nat) : Line :=
  variadic .tight (o.name ("DEFER_" ++ toString level)) []
    (tightCall (o.name ("DEFER_" ++ toString (level - 1)))
        [[ellipsisArguments, (name (o.name "EMPTY")).afterSpace]] ++
      parenthesized [])

/-- What the first level of deferral expands to. -/
def deferOnce (o : Options) : List Token :=
  [ellipsisArguments, (name (o.name "EMPTY")).afterSpace] ++ parenthesized []

/-- The macros that delay expansion, and those that force it. -/
def deferral (o : Options) : List Block :=
  [.line (fixed (o.name "EMPTY") [] []), .line .blank] ++
  docs [
    "Delays the expansion of a function-like macro by one rescan.",
    "",
    "`" ++ o.name "DEFER" ++ "(FOO)(x)` leaves `FOO (x)` behind; a later",
    "`" ++ o.name "EVAL" ++ "` turns it into `FOO(x)`."] ++
  [.line (variadic .tight (o.name "DEFER") [] (deferOnce o)),
    .line (variadic .tight (o.name "DEFER_1") [] (deferOnce o)),
    .table 2 (o.deferLevels - 1) (deferLevel o)] ++
  docs ["Defers by `n` rescans, for `n` from 1 to " ++ toString o.deferLevels ++ "."] ++
  [.line (variadic .loose (o.name "DEFER_N") ["n"]
      (looseCall (o.name "CONCAT") [[name (o.name "DEFER_")], [name "n"]] ++
        parenthesized [ellipsisArguments])),
    .line .blank,
    .line (fixed (o.name "EXPAND") ["x"] [name "x"]),
    .line .blank] ++
  docs ["Forces one extra rescan of its arguments."] ++
  [.line (variadic .tight (o.name "EVAL") [] [ellipsisArguments])]

/-! ### Helpers -/

/-- Pasting, assertions, unused variables and the bound. -/
def helpers (o : Options) : List Block :=
  docs ["Pastes two tokens together after expanding both of them."] ++
  [.line (fixed (o.name "CONCAT") ["a", "b"]
      (looseCall (o.name "CONCAT_IMPL") [[name "a"], [name "b"]])),
    .line (fixed (o.name "CONCAT_IMPL") ["a", "b"]
      [name "a", (mark "##").afterSpace, (name "b").afterSpace]),
    .line .blank] ++
  docs ["Compile-time assertion whose message repeats the failed condition."] ++
  [.line (fixed (o.name "STATIC_ASSERT") ["stmt"]
      (looseCall "static_assert"
        [[name "stmt"],
          [⟨.literal, "\"Compile-time assertion failed: \"", false⟩, (mark "#").afterSpace,
            name "stmt"]])),
    .line .blank] ++
  docs [
    "Silences unused-variable warnings, mostly for generated variables",
    "of which only some end up being used."] ++
  [.line (fixed (o.name "UNUSED") ["x"]
      (parenthesized [name "void"] ++ parenthesized [name "x"] ++ [mark ";"])),
    .line .blank] ++
  docs [
    "Largest argument count supported by the macros in this header.",
    "Compilers may impose a lower limit of their own."] ++
  [.line (.define .loose
      ⟨o.name "VA_MAX_LENGTH", none, false, [number (toString o.bound)]⟩)]

/-! ### Repetition and enumeration -/

/-- What stands between two applications. -/
inductive Joint
  /-- The separator that the caller passes. -/
  | separator
  | comma
  deriving DecidableEq, Repr

/-- The token of a joint. -/
def Joint.token : Joint → Token
  | .separator => (name "s").afterSpace
  | .comma => mark ","

/-- The application of `m` to an index and the arguments of the ellipsis, after a space. -/
def application (index : Nat) : List Token :=
  Token.respace true (tightCall "m" [[number (toString index)], [ellipsisArguments]])

/-- The applications to the indices below `count`, with a joint between every two. -/
def unrolled (count : Nat) (joint : Joint) : List Token :=
  Token.respace false ((List.range count).flatMap fun index =>
    if index = 0 then application index else joint.token :: application index)

@[simp] theorem unrolled_zero (joint : Joint) : unrolled 0 joint = [] := rfl

/-- The entry of the repetition table for a count. -/
def repetitionEntry (o : Options) (count : Nat) : Line :=
  variadic .tight (o.name "REPEAT_WITH_" ++ toString count) ["s", "m"] (unrolled count .separator)

/-- The macros that apply a macro a number of times. -/
def repetition (o : Options) : List Block :=
  [.table 0 (o.bound + 1) (repetitionEntry o)] ++
  docs [
    "Expands to `m(0, ...) s m(1, ...) s ... m(n-1, ...)`.",
    "",
    "`n` must expand to an integer from 0 to " ++ toString o.bound ++ "."] ++
  [.line (variadic .tight (o.name "REPEAT_WITH") ["s", "n", "m"]
      (looseCall (o.name "CONCAT") [[name (o.name "REPEAT_WITH_")], [name "n"]] ++
        parenthesized (separated false [[name "s"], [name "m"], [ellipsisArguments]])))] ++
  docs ["Same as the separated variant, with nothing in between."] ++
  [.line (variadic .tight (o.name "REPEAT") ["n", "m"]
      (tightCall (o.name "REPEAT_WITH") [[], [name "n"], [name "m"], [ellipsisArguments]])),
    .line .blank]

/-- The entry of the enumeration table for a count. -/
def enumerationEntry (o : Options) (count : Nat) : Line :=
  variadic .tight (o.name "ENUM_IMPL_" ++ toString count) ["m"] (unrolled count .comma)

/-- The macros that list applications of a macro with commas between them. -/
def enumeration (o : Options) : List Block :=
  [.table 0 (o.bound + 1) (enumerationEntry o)] ++
  docs ["Expands to the comma-separated list `m(0, ...), ..., m(n-1, ...)`."] ++
  [.line (variadic .tight (o.name "ENUM") ["n", "m"]
      (looseCall (o.name "CONCAT") [[name (o.name "ENUM_IMPL_")], [name "n"]] ++
        parenthesized (separated false [[name "m"], [ellipsisArguments]]))),
    .line .blank]

/-! ### Selection -/

/-- The entry of the selection table for a position. -/
def selectionEntry (o : Options) (index : Nat) : Line :=
  variadic .mixed (o.name "GET_VA_ARG_" ++ toString index) (numbered "arg" (index + 1))
    [name ("arg" ++ toString index)]

/-- The macros that pick an argument by its position. -/
def selection (o : Options) : List Block :=
  [.table 0 o.bound (selectionEntry o)] ++
  docs [
    "Expands to the zero-based `n`-th of the remaining arguments.",
    "",
    "`n` must be below " ++ toString o.bound ++
      " and at least `n + 1` arguments must follow it."] ++
  [.line (variadic .tight (o.name "GET_VA_ARG") ["n"]
      (looseCall (o.name "CONCAT") [[name (o.name "GET_VA_ARG_")], [name "n"]] ++
        parenthesized [ellipsisArguments])),
    .line .blank]

/-! ### Composition -/

/-- The macros that call a macro with every item of a list and its position. -/
def composition (o : Options) : List Block :=
  let counted := tightCall (o.name "VA_LENGTH") [[ellipsisArguments]]
  let step := name (o.name "FOR_EACH_IMPL")
  [.line (variadic .loose (o.name "FOR_EACH_IMPL") ["i", "m"]
      (looseCall (o.name "FOR_EACH_IMPL2")
        [[name "i"], [name "m"],
          looseCall (o.name "GET_VA_ARG") [[name "i"], [ellipsisArguments]]])),
    .line (variadic .loose (o.name "FOR_EACH_IMPL2") ["i", "m"]
      (looseCall "m" [[name "i"], [ellipsisArguments]]))] ++
  docs [
    "Calls `m(index, item)` for every item, joined by `s`.",
    "",
    "Supports 1 to " ++ toString o.bound ++ " items."] ++
  [.line (variadic .loose (o.name "FOR_EACH_WITH") ["s", "m"]
      (looseCall (o.name "REPEAT_WITH")
        [[name "s"], counted, [step], [name "m"], [ellipsisArguments]]))] ++
  docs ["Calls `m(index, item)` for every item."] ++
  [.line (variadic .loose (o.name "FOR_EACH") ["m"]
      (looseCall (o.name "FOR_EACH_WITH") [[], [name "m"], [ellipsisArguments]]))] ++
  docs ["Calls `m(index, item)` for every item and separates the results with commas."] ++
  [.line (variadic .loose (o.name "FOR_EACH_ENUM") ["m"]
      (looseCall (o.name "ENUM") [counted, [step], [name "m"], [ellipsisArguments]]))]

/-! ### The families -/

/-- The families of macros in a header. -/
inductive Family
  | counting
  | deferral
  | helpers
  | repetition
  | enumeration
  | selection
  | composition
  deriving DecidableEq, Repr

/-- The lines of a family. -/
def Family.blocks (o : Options) : Family → List Block
  | .counting => Header.counting o
  | .deferral => Header.deferral o
  | .helpers => Header.helpers o
  | .repetition => Header.repetition o
  | .enumeration => Header.enumeration o
  | .selection => Header.selection o
  | .composition => Header.composition o

/-- The text of a family within a capacity; the options are taken as they are. -/
def Family.text (f : Family) (o : Options) (capacity : Option Nat) : Except HeaderError String :=
  match writeBlocks capacity "" (f.blocks o) with
  | some text => .ok text
  | none => .error .noRoom

end VariadicMacros.Header
