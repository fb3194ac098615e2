/-
**Macro definitions and their parameters.**

A definition gives a name a replacement list.  It is object-like when the name stands alone and
function-like when the name is called with arguments; a function-like definition may end its
parameters with an ellipsis, whose arguments its replacement list calls `__VA_ARGS__`.

Main definitions:

* `VariadicMacros.Definition`;
* `VariadicMacros.Definition.parameterIndex?` — which parameter a token of the replacement list
  stands for;
* `VariadicMacros.Definition.interchangeable` — two definitions say the same, names aside.

Main results:

* `VariadicMacros.Definition.parameterIndex?_lt` — the index is below the number of argument
  lists that a call binds.
-/

import VariadicMacros.Token

set_option autoImplicit false

namespace VariadicMacros

/-- What a replacement list calls the arguments of the ellipsis. -/
def variadicName : String := "__VA_ARGS__"

/-- A macro definition. -/
structure Definition where
  name : String
  /-- The named parameters in order; none at all for an object-like macro. -/
  parameters : Option (List String)
  /-- The parameter list ends with an ellipsis. -/
  variadic : Bool
  /-- The replacement list. -/
  body : List Token
  deriving DecidableEq, Repr

namespace Definition

/-- Whether the macro is called with arguments. -/
def isFunctionLike (d : Definition) : Bool := d.parameters.isSome

/-- The position of a token among the parameters, `__VA_ARGS__` coming after the named ones. -/
def parameterIndex? (d : Definition) (t : Token) : Option Nat :=
  if t.kind = .identifier then
    match d.parameters with
    | none => none
    | some names =>
      match names.idxOf? t.text with
      | some i => some i
      | none => if d.variadic && t.text == variadicName then some names.length else none
  else none

/-- How many argument lists a call of the macro binds. -/
def slotCount (d : Definition) : Nat :=
  match d.parameters with
  | none => 0
  | some names => names.length + d.variadic.toNat

/-- An object-like macro has no parameters. -/
theorem parameterIndex?_of_parameters_eq_none {d : Definition} (h : d.parameters = none)
    (t : Token) : d.parameterIndex? t = none := by
  simp [parameterIndex?, h]

/-- The index of a parameter is one of the slots of a call. -/
theorem parameterIndex?_lt {d : Definition} {t : Token} {i : Nat}
    (h : d.parameterIndex? t = some i) : i < d.slotCount := by
  unfold parameterIndex? at h
  unfold slotCount
  split at h
  · cases hp : d.parameters with
    | none => simp [hp] at h
    | some names =>
        simp only [hp] at h ⊢
        split at h
        · next j hj =>
          cases h
          have := (List.of_findIdx?_eq_some hj)
          by_cases hi : i < names.length
          · omega
          · simp [List.getElem?_eq_none (Nat.le_of_not_lt hi)] at this
        · split at h
          · next hv =>
            cases h
            simp only [Bool.and_eq_true] at hv
            simp [hv.1]
          · cases h
  · cases h

/-- The spellings and space marks of a replacement list. -/
def bodySpelling (d : Definition) : List (String × Bool) := d.body.map fun t => (t.text, t.spaced)

/-- Two definitions may stand for one another when their parameters and the spelling of their
replacement lists agree; the names are not compared. -/
def interchangeable (a b : Definition) : Bool :=
  a.parameters == b.parameters && a.variadic == b.variadic && a.bodySpelling == b.bodySpelling

theorem interchangeable_iff {a b : Definition} :
    a.interchangeable b = true ↔
      a.parameters = b.parameters ∧ a.variadic = b.variadic ∧ a.bodySpelling = b.bodySpelling := by
  simp [interchangeable, and_assoc]

theorem interchangeable_refl (d : Definition) : d.interchangeable d = true :=
  interchangeable_iff.2 ⟨rfl, rfl, rfl⟩

theorem interchangeable_comm (a b : Definition) :
    a.interchangeable b = b.interchangeable a := by
  rw [Bool.eq_iff_iff, interchangeable_iff, interchangeable_iff]
  constructor <;> rintro ⟨h₁, h₂, h₃⟩ <;> exact ⟨h₁.symm, h₂.symm, h₃.symm⟩

end Definition

end VariadicMacros
