/-
**Directives, and the table that a source of them builds.**

The directives of a source are its lines that start with `#`.  Only `#define` and `#undef` do
something; all others, conditions among them, are passed over, as is ordinary text.  A source is
read line by line until its end or the first line that is wrong, and what was read before that
line stays in the table.

Main definitions:

* `VariadicMacros.Directive` — what a line asks for;
* `VariadicMacros.Notice` — what is worth reporting while a source is read;
* `VariadicMacros.Loading` — how far a source has been read, with
  `VariadicMacros.Loading.readLine` for one more line;
* `VariadicMacros.MacroTable.load` — reads the directives of a source;
* `VariadicMacros.MacroTable.defineFrom` — reads one definition of a command line.

Main results:

* `VariadicMacros.MacroTable.load_eq` — a source is read line by line;
* `VariadicMacros.Loading.foldl_readLine_of_error` — up to the first line that is wrong.
-/

import VariadicMacros.Definition.Reader
import VariadicMacros.MacroTable
import VariadicMacros.Source
import VariadicMacros.Text.Character

set_option autoImplicit false

namespace VariadicMacros

/-! ### Directives -/

/-- What a line of a source asks for. -/
inductive Directive
  | define (d : Definition)
  /-- Forget a name, if one is given. -/
  | undef (name : Option String)
  /-- Any other directive. -/
  | skipped (keyword : String)
  deriving DecidableEq, Repr

namespace Directive

open Text

/-- Reads the text after the `#` of a directive. -/
def ofText (cs : List Char) : Except MacroError Directive :=
  let cs := trimStart cs
  let keyword := String.ofList (cs.takeWhile isNameChar)
  let rest := cs.dropWhile isNameChar
  if keyword = "define" then
    match Token.lexChars rest with
    | .error e => .error e
    | .ok tokens => (Definition.ofTokens tokens).map .define
  else if keyword = "undef" then
    match Token.lexChars rest with
    | .error e => .error e
    | .ok tokens => .ok (.undef (tokens.head?.map Token.text))
  else .ok (.skipped keyword)

/-- Reads a line; there is no directive in ordinary text. -/
def ofLine (line : List Char) : Except MacroError (Option Directive) :=
  match trimStart line with
  | '#' :: cs => (ofText cs).map some
  | _ => .ok none

/-- How many definitions a directive makes. -/
def weight : Directive → Nat
  | .define _ => 1
  | .undef _ => 0
  | .skipped _ => 0

end Directive

/-! ### Loading -/

/-- What is worth reporting while definitions are read. -/
inductive Notice
  /-- A name got a definition different from the one it had. -/
  | redefined (name : String)
  /-- A directive was passed over. -/
  | skipped (keyword : String)
  /-- A whole source was read: how many definitions it made, and how many the table has now. -/
  | loaded (defined total : Nat)
  deriving DecidableEq, Repr

/-- The outcome of reading definitions into a table. -/
structure Loading where
  /-- The table afterwards, which holds what was read before an error too. -/
  table : MacroTable
  /-- What was reported, in order. -/
  notices : List Notice
  /-- How many definitions were made. -/
  result : Except MacroError Nat

namespace MacroTable

/-- The notice of a definition that replaces a different one. -/
def redefinition (table : MacroTable) (d : Definition) : List Notice :=
  if table.redefines d then [.redefined d.name] else []

/-- Carries out a directive. -/
def perform (table : MacroTable) : Directive → MacroTable
  | .define d => table.define d
  | .undef (some name) => table.forget name
  | .undef none => table
  | .skipped _ => table

/-- What carrying out a directive reports. -/
def report (table : MacroTable) : Directive → List Notice
  | .define d => table.redefinition d
  | .undef _ => []
  | .skipped keyword => [.skipped keyword]

end MacroTable

namespace Loading

/-- Nothing has been read into a table yet. -/
def start (table : MacroTable) : Loading := ⟨table, [], .ok 0⟩

/-- Reads a line, with the last notice put first.  Nothing is read after a line that is wrong. -/
def readLine (l : Loading) (line : List Char) : Loading :=
  match l.result with
  | .error _ => l
  | .ok defined =>
    match Directive.ofLine line with
    | .error e => { l with result := .error e }
    | .ok none => l
    | .ok (some directive) =>
      ⟨l.table.perform directive, (l.table.report directive).reverse ++ l.notices,
        .ok (defined + directive.weight)⟩

/-- Ends a loading: a source that was read completely is reported, and the notices are put in
order. -/
def finish (l : Loading) : Loading :=
  match l.result with
  | .error _ => { l with notices := l.notices.reverse }
  | .ok defined =>
    { l with notices := (Notice.loaded defined l.table.size :: l.notices).reverse }

/-- After a line that is wrong nothing is read. -/
theorem foldl_readLine_of_error {l : Loading} {e : MacroError} (h : l.result = .error e)
    (lines : List (List Char)) : lines.foldl readLine l = l := by
  induction lines with
  | nil => rfl
  | cons line rest ih =>
      rw [List.foldl_cons, show l.readLine line = l by simp [readLine, h]]
      exact ih

end Loading

namespace MacroTable

/-- Reads the directives of a source. -/
def load (table : MacroTable) (source : String) : Loading :=
  match Source.foldLines Loading.readLine (.start table) source with
  | .error e => ⟨table, [], .error e⟩
  | .ok l => l.finish

/-- A source is read line by line once its comments are known to be closed. -/
theorem load_eq (table : MacroTable) (source : String) :
    table.load source =
      match Source.stripComments (Source.splice source.toList) with
      | .error e => ⟨table, [], .error e⟩
      | .ok cs => ((Source.lines cs).foldl Loading.readLine (.start table)).finish := by
  rw [load, Source.foldLines_eq]
  cases Source.stripComments (Source.splice source.toList) <;> rfl

/-- Reads a definition as it is given on a command line. -/
def defineFrom (table : MacroTable) (definition : String) : Loading :=
  match Definition.ofCommandLine definition with
  | .error e => ⟨table, [], .error e⟩
  | .ok d => ⟨table.define d, table.redefinition d, .ok 1⟩

end MacroTable

end VariadicMacros
