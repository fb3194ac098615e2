/-
**The layout of a header: lines, tables, and writing within a capacity.**

A header is a list of blocks, and a block is a single line or a table with one line for every
number of a range.  The lines that define macros hold the definitions themselves, so that what a
header defines can be read off it without reading its text.  Blocks are written one line at a
time, and writing stops as soon as a capacity is exceeded.

Main definitions:

* `VariadicMacros.Header.Line` — a line, and `VariadicMacros.Header.Line.writeOnto`;
* `VariadicMacros.Header.Block` — a line or a table of lines;
* `VariadicMacros.Header.definitions` — what the lines of a header define;
* `VariadicMacros.Header.writeBlocks` — writes blocks after a text.

Main results:

* `VariadicMacros.Header.writeLines_none` — without a capacity writing never fails;
* `VariadicMacros.Header.writeTable_eq`, `VariadicMacros.Header.writeBlocks_eq` — a table is
  written like the list of its lines, and blocks like the lines of them all.
-/

import VariadicMacros.Definition

set_option autoImplicit false

namespace VariadicMacros.Header

/-! ### Lines -/

/-- Which commas of a parameter list are followed by a space. -/
structure Spacing where
  /-- The commas between named parameters. -/
  names : Bool
  /-- The comma before the ellipsis. -/
  ellipsis : Bool
  deriving DecidableEq, Repr

namespace Spacing

/-- No comma is followed by a space. -/
def tight : Spacing := ⟨false, false⟩

/-- Every comma is followed by a space. -/
def loose : Spacing := ⟨true, true⟩

/-- Every comma but the one before the ellipsis is followed by a space. -/
def mixed : Spacing := ⟨true, false⟩

/-- A comma with or without its space. -/
def comma (spaced : Bool) : String := if spaced then ", " else ","

end Spacing

/-- A line of a header. -/
inductive Line
  /-- The characters of the line. -/
  | text (content : String)
  /-- A line of documentation. -/
  | doc (content : String)
  /-- A directive that defines a macro. -/
  | define (spacing : Spacing) (d : Definition)
  deriving DecidableEq, Repr

namespace Line

/-- A line with nothing on it. -/
def blank : Line := .text ""

/-- The parameter list of a definition with its parentheses, empty for an object-like macro. -/
def parameterText (spacing : Spacing) (d : Definition) : String :=
  match d.parameters with
  | none => ""
  | some names =>
    let named := String.intercalate (Spacing.comma spacing.names) names
    let ellipsis :=
      if d.variadic then
        if names.isEmpty then "..." else Spacing.comma spacing.ellipsis ++ "..."
      else ""
    "(" ++ named ++ ellipsis ++ ")"

/-- Appends a replacement list to a text, after a space unless it is empty. -/
def bodyOnto (out : String) : List Token → String
  | [] => out
  | t :: ts => Token.spellOnto (out ++ " " ++ t.text) ts

/-- Appends a line and its end to a text. -/
def writeOnto (out : String) : Line → String
  | .text content => out ++ content ++ "\n"
  | .doc content => if content = "" then out ++ "///\n" else out ++ "/// " ++ content ++ "\n"
  | .define spacing d =>
    bodyOnto (out ++ "#define " ++ d.name ++ parameterText spacing d) d.body ++ "\n"

/-- What a line defines. -/
def definition? : Line → Option Definition
  | .define _ d => some d
  | .text _ => none
  | .doc _ => none

end Line

/-! ### Blocks -/

/-- A line, or a table with a line for every number of a range. -/
inductive Block
  | line (l : Line)
  | table (first count : Nat) (entry : Nat → Line)

/-- The lines of a block. -/
def Block.lines : Block → List Line
  | .line l => [l]
  | .table first count entry => (List.range' first count).map entry

/-- The definitions that the lines of blocks make, in order. -/
def definitions (blocks : List Block) : List Definition :=
  (blocks.flatMap Block.lines).filterMap Line.definition?

/-- Lines of documentation. -/
def docs (contents : List String) : List Block := contents.map fun c => .line (.doc c)

/-! ### Writing -/

/-- Writes a line after a text, unless the capacity does not hold both. -/
def writeLine (capacity : Option Nat) (out : String) (l : Line) : Option String :=
  let out := l.writeOnto out
  if capacity.all fun most => out.utf8ByteSize ≤ most then some out else none

/-- Writes lines after a text. -/
def writeLines (capacity : Option Nat) (out : String) : List Line → Option String
  | [] => some out
  | l :: ls =>
    match writeLine capacity out l with
    | none => none
    | some out => writeLines capacity out ls

/-- Writes the entries of a table from the number `first` on. -/
def writeTable (capacity : Option Nat) (entry : Nat → Line) (first : Nat) (out : String) :
    Nat → Option String
  | 0 => some out
  | count + 1 =>
    match writeLine capacity out (entry first) with
    | none => none
    | some out => writeTable capacity entry (first + 1) out count

/-- Writes a block after a text. -/
def writeBlock (capacity : Option Nat) (out : String) : Block → Option String
  | .line l => writeLine capacity out l
  | .table first count entry => writeTable capacity entry first out count

/-- Writes blocks after a text. -/
def writeBlocks (capacity : Option Nat) (out : String) : List Block → Option String
  | [] => some out
  | b :: bs =>
    match writeBlock capacity out b with
    | none => none
    | some out => writeBlocks capacity out bs

/-- Without a capacity every line can be written. -/
theorem writeLines_none (out : String) (ls : List Line) :
    writeLines none out ls = some (ls.foldl Line.writeOnto out) := by
  induction ls generalizing out with
  | nil => rfl
  | cons l ls ih => simp [writeLines, writeLine, ih]

/-- A table is written like the list of its lines. -/
theorem writeTable_eq (capacity : Option Nat) (entry : Nat → Line) (first : Nat) (out : String)
    (count : Nat) :
    writeTable capacity entry first out count =
      writeLines capacity out ((List.range' first count).map entry) := by
  induction count generalizing first out with
  | zero => rfl
  | succ count ih =>
      rw [writeTable, List.range'_succ, List.map_cons, writeLines]
      cases writeLine capacity out (entry first) with
      | none => rfl
      | some out => exact ih (first + 1) out

theorem writeLines_append (capacity : Option Nat) (out : String) (ls ms : List Line) :
    writeLines capacity out (ls ++ ms) =
      (writeLines capacity out ls).bind fun out => writeLines capacity out ms := by
  induction ls generalizing out with
  | nil => rfl
  | cons l ls ih =>
      rw [List.cons_append, writeLines, writeLines]
      cases writeLine capacity out l with
      | none => rfl
      | some out => exact ih out

theorem writeBlock_eq (capacity : Option Nat) (out : String) (b : Block) :
    writeBlock capacity out b = writeLines capacity out b.lines := by
  cases b with
  | line l =>
      rw [writeBlock, Block.lines, writeLines]
      cases writeLine capacity out l <;> rfl
  | table first count entry => exact writeTable_eq capacity entry first out count

/-- Blocks are written like the lines of them all. -/
theorem writeBlocks_eq (capacity : Option Nat) (out : String) (bs : List Block) :
    writeBlocks capacity out bs = writeLines capacity out (bs.flatMap Block.lines) := by
  induction bs generalizing out with
  | nil => rfl
  | cons b bs ih =>
      rw [writeBlocks, List.flatMap_cons, writeLines_append, writeBlock_eq]
      cases writeLines capacity out b.lines with
      | none => rfl
      | some out => exact ih out

end VariadicMacros.Header
