/-
**Generating a header.**

A header is a banner with the time of its generation, an introduction, an include guard, and the
families of macros in a fixed order.  A macro may use one that is defined further down: what counts
is what is defined when a call is expanded.

Main definitions:

* `VariadicMacros.Header.blocks` — the whole header as lines;
* `VariadicMacros.Header.write` — its text for given options, within a capacity;
* `VariadicMacros.Header.render` — its text at a time.
-/

import VariadicMacros.Header.Banner
import VariadicMacros.Header.Families
import VariadicMacros.Header.Timestamp

set_option autoImplicit false

namespace VariadicMacros.Header

/-- The definition of the include guard. -/
def guardDefinition (o : Options) : Definition := ⟨o.guard, none, false, []⟩

/-- The lines before the macros. -/
def opening (o : Options) (stamp : String) : List Block :=
  [.line (.text (bannerStart ++ stamp ++ ".")),
    .line (.text "//"),
    .line (.text "// Do not edit it by hand; change the generator configuration and"),
    .line (.text "// regenerate it instead."),
    .line .blank] ++
  docs [
    "Variadic macro utilities for up to " ++ toString o.bound ++ " arguments.",
    "",
    "Every table below is unrolled up to that bound, since the",
    "preprocessor cannot recurse."] ++
  [.line .blank,
    .line (.text ("#ifndef " ++ o.guard)),
    .line (.define .loose (guardDefinition o)),
    .line .blank]

/-- The lines of a header. -/
def blocks (o : Options) (stamp : String) : List Block :=
  opening o stamp ++
  counting o ++ [.line .blank] ++
  deferral o ++ [.line .blank] ++
  helpers o ++ [.line .blank] ++
  repetition o ++ enumeration o ++ selection o ++ composition o ++
  [.line .blank, .line (.text ("#endif // #ifndef " ++ o.guard))]

/-- The text of a header with a given stamp, for options that are accepted and if it fits within
the capacity. -/
def write (o : Options) (stamp : String) (capacity : Option Nat) : Except HeaderError String :=
  match o.check with
  | .error e => .error e
  | .ok () =>
    match writeBlocks capacity "" (blocks o stamp) with
    | some text => .ok text
    | none => .error .noRoom

/-- The text of a header that is generated at a time. -/
def render (o : Options) (time : Timestamp) : Except HeaderError String := write o time.text none

/-- Options that are not accepted give no header. -/
theorem write_eq_error_of_check {o : Options} {e : HeaderError} (h : o.check = .error e)
    (stamp : String) (capacity : Option Nat) : write o stamp capacity = .error e := by
  simp [write, h]

/-- Options that are accepted give a header whatever the time. -/
theorem write_eq_ok_of_check {o : Options} (h : o.check = .ok ()) (stamp : String) :
    write o stamp none =
      .ok (((blocks o stamp).flatMap Block.lines).foldl Line.writeOnto "") := by
  simp [write, h, writeBlocks_eq, writeLines_none]

end VariadicMacros.Header
