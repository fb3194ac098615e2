/-
**Invocations of function-like macros: reading arguments and lining them up.**

The arguments of a call are the token lists between the commas that stand outside of inner
parentheses.  They are read off the text that follows the macro's name, and then lined up with
the parameters of its definition: the ellipsis receives all arguments beyond the named ones,
together with the commas between them.

Main definitions:

* `VariadicMacros.Invocation.readArguments` — splits the text after the opening parenthesis;
* `VariadicMacros.Invocation.written` — the tokens that write an argument list;
* `VariadicMacros.Definition.demand` — how many arguments a definition takes;
* `VariadicMacros.Definition.bind` — one token list for every parameter.

Main results:

* `VariadicMacros.Definition.length_bind` — a call binds exactly the slots of the definition.
-/

import VariadicMacros.Definition
import VariadicMacros.MacroError
import VariadicMacros.Painted

set_option autoImplicit false

namespace VariadicMacros

/-! ### Reading arguments -/

namespace Invocation

/-- An argument list, the parenthesis that closes it, and the text after that. -/
structure ArgumentList where
  arguments : List (List Painted)
  close : Painted
  rest : List Painted
  deriving DecidableEq, Repr

/-- Reads on inside an argument list, `nesting` parentheses deep.  `current` holds the tokens of
the argument being read and `done` the arguments before it, both the last one first.  There is no
result when the text ends first. -/
def readFrom (nesting : Nat) (current : List Painted) (done : List (List Painted)) :
    List Painted → Option ArgumentList
  | [] => none
  | t :: rest =>
    if t.isMark "(" then readFrom (nesting + 1) (t :: current) done rest
    else if t.isMark ")" then
      match nesting with
      | 0 => some ⟨(current.reverse :: done).reverse, t, rest⟩
      | nesting + 1 => readFrom nesting (t :: current) done rest
    else if t.isMark "," && nesting == 0 then readFrom nesting [] (current.reverse :: done) rest
    else readFrom nesting (t :: current) done rest

/-- Reads the arguments of a call from the text after its opening parenthesis. -/
def readArguments (text : List Painted) : Option ArgumentList := readFrom 0 [] [] text

/-- A comma that may stand between two arguments. -/
def comma : Painted := .plain (.mark ",")

/-- The arguments one after the other, with a comma between every two. -/
def written : List (List Painted) → List Painted
  | [] => []
  | argument :: rest => argument ++ rest.flatMap (comma :: ·)

@[simp] theorem written_nil : written [] = [] := rfl

@[simp] theorem written_singleton (argument : List Painted) : written [argument] = argument := by
  simp [written]

end Invocation

/-! ### Lining arguments up with parameters -/

namespace Definition

/-- How many arguments a function-like macro takes; a call with no argument at all is read as one
with a single empty argument, which a macro with no parameters accepts. -/
def demand (d : Definition) : ArgumentDemand :=
  let named := (d.parameters.getD []).length
  if d.variadic then .atLeast named else .exactly named

/-- Whether an argument list suits a macro: one empty argument where there are no parameters, and
as many arguments as demanded otherwise. -/
def suits (d : Definition) (arguments : List (List Painted)) : Bool :=
  if d.demand = .exactly 0 then arguments == [[]] else d.demand.accepts arguments.length

/-- Lines up the arguments of a call with the parameters of a macro.  The last entry for a
variadic macro holds the arguments beyond the named ones with the commas between them. -/
def bind (d : Definition) (arguments : List (List Painted)) :
    Except MacroError (List (List Painted)) :=
  match d.parameters with
  | none => .ok []
  | some names =>
    if d.suits arguments then
      if d.variadic then
        .ok (arguments.take names.length ++ [Invocation.written (arguments.drop names.length)])
      else if names.isEmpty then .ok []
      else .ok arguments
    else .error (.argumentCount d.name d.demand arguments.length)

/-- A call binds exactly one token list for every slot of the definition. -/
theorem length_bind {d : Definition} {arguments actuals : List (List Painted)}
    (h : d.bind arguments = .ok actuals) : actuals.length = d.slotCount := by
  unfold bind at h
  unfold slotCount
  cases hp : d.parameters with
  | none =>
      simp only [hp] at h
      cases h
      rfl
  | some names =>
      simp only [hp] at h
      split at h
      · next hs =>
        split at h
        · next hv =>
          cases h
          simp only [suits, demand, hv, hp, Option.getD_some, ArgumentDemand.accepts,
            if_true] at hs
          simp [hv, show names.length ≤ arguments.length by simpa using hs]
        · next hv =>
          have hv : d.variadic = false := by simpa using hv
          split at h
          · next hn =>
            cases h
            simp only [List.isEmpty_iff] at hn
            simp [hn, hv]
          · next hn =>
            cases h
            have hne : names.length ≠ 0 := by
              intro h0
              exact hn (by simp [List.length_eq_zero_iff.1 h0])
            simp only [suits, demand, hv, hp, Option.getD_some, ArgumentDemand.accepts,
              ArgumentDemand.exactly.injEq, hne, if_false, Bool.false_eq_true, beq_iff_eq] at hs
            simp [hv, hs]
      · cases h

end Definition

end VariadicMacros
