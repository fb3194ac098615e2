/-
**Tables of macro definitions.**

A table maps names to definitions.  Two tables are equal exactly when they look up the same, so
that the order in which definitions were made cannot be seen.

Main definitions:

* `VariadicMacros.MacroTable`;
* `VariadicMacros.MacroTable.define` — adds a definition under its own name;
* `VariadicMacros.MacroTable.forget` — removes a name;
* `VariadicMacros.MacroTable.redefines` — a definition replaces a different one.

Main results:

* `VariadicMacros.MacroTable.getElem?_define`, `VariadicMacros.MacroTable.getElem?_forget` — what
  a changed table looks up;
* `VariadicMacros.MacroTable.define_define_self` — defining twice is defining once.
-/

import Std.Data.ExtTreeMap
import VariadicMacros.Definition

set_option autoImplicit false

namespace VariadicMacros

/-- A table of macro definitions. -/
abbrev MacroTable := Std.ExtTreeMap String Definition

namespace MacroTable

/-- The table without any definition. -/
def empty : MacroTable := ∅

/-- Adds a definition, replacing the one of the same name. -/
def define (table : MacroTable) (d : Definition) : MacroTable := table.insert d.name d

/-- Removes the definition of a name. -/
def forget (table : MacroTable) (name : String) : MacroTable := table.erase name

/-- Whether the table has a definition of the same name that says something else. -/
def redefines (table : MacroTable) (d : Definition) : Bool :=
  table[d.name]?.any fun previous => !previous.interchangeable d

@[simp] theorem getElem?_empty (name : String) : empty[name]? = none := by simp [empty]

theorem getElem?_define (table : MacroTable) (d : Definition) (name : String) :
    (table.define d)[name]? = if d.name = name then some d else table[name]? := by
  simp [define, Std.ExtTreeMap.getElem?_insert]

theorem getElem?_forget (table : MacroTable) (name other : String) :
    (table.forget name)[other]? = if name = other then none else table[other]? := by
  simp [forget, Std.ExtTreeMap.getElem?_erase]

/-- Defining twice is defining once. -/
theorem define_define_self (table : MacroTable) (d : Definition) :
    (table.define d).define d = table.define d := by
  refine Std.ExtTreeMap.ext_getElem? fun name => ?_
  simp only [getElem?_define]
  split <;> rfl

/-- A definition never redefines itself. -/
theorem redefines_define_self (table : MacroTable) (d : Definition) :
    (table.define d).redefines d = false := by
  simp [redefines, getElem?_define, Definition.interchangeable_refl]

end MacroTable

end VariadicMacros
