/-
**Tokens that remember which macros produced them.**

While a text is expanded every token carries the names of the macros that it must not invoke
again, because it was produced by invocations of them.  Such a set of names is kept as a list of
which only the members matter.

Main definitions:

* `VariadicMacros.HideSet` with `union`, `inter` and `add`;
* `VariadicMacros.Painted` — a token with its hide set;
* `VariadicMacros.Painted.isHidden` — the token names a macro of its own hide set.

Main results:

* `VariadicMacros.HideSet.mem_union`, `VariadicMacros.HideSet.mem_inter`,
  `VariadicMacros.HideSet.mem_add` — the members of each construction.
-/

import VariadicMacros.Token

set_option autoImplicit false

namespace VariadicMacros

/-! ### Hide sets -/

/-- The names of the macros that a token must not invoke. -/
abbrev HideSet := List String

namespace HideSet

/-- The names of both sets. -/
def union (s t : HideSet) : HideSet :=
  match s with
  | [] => t
  | _ :: _ => s ++ t.filter fun n => !s.contains n

/-- The names common to both sets. -/
def inter (s t : HideSet) : HideSet := s.filter fun n => t.contains n

/-- The set with one more name. -/
def add (n : String) (s : HideSet) : HideSet := if s.contains n then s else n :: s

@[simp] theorem mem_union {n : String} {s t : HideSet} : n ∈ union s t ↔ n ∈ s ∨ n ∈ t := by
  cases s with
  | nil => simp [union]
  | cons m s =>
      simp only [union, List.mem_append, List.mem_filter, Bool.not_eq_true',
        List.contains_eq_mem, decide_eq_false_iff_not]
      by_cases h : n ∈ m :: s <;> simp [h]

@[simp] theorem mem_inter {n : String} {s t : HideSet} : n ∈ inter s t ↔ n ∈ s ∧ n ∈ t := by
  simp [inter]

@[simp] theorem mem_add {n m : String} {s : HideSet} : n ∈ add m s ↔ n = m ∨ n ∈ s := by
  unfold add
  split
  · next h =>
    simp only [List.contains_eq_mem, decide_eq_true_eq] at h
    constructor
    · exact .inr
    · rintro (rfl | hn)
      · exact h
      · exact hn
  · simp

end HideSet

/-! ### Painted tokens -/

/-- A token together with the macros that it must not invoke. -/
structure Painted extends Token where
  hidden : HideSet
  deriving DecidableEq, Repr

namespace Painted

/-- A token that may invoke every macro. -/
def plain (t : Token) : Painted := ⟨t, []⟩

/-- Whether the token names a macro that it must not invoke. -/
def isHidden (p : Painted) : Bool := p.hidden.contains p.text

/-- The same token with further names hidden from it. -/
def hide (names : HideSet) (p : Painted) : Painted := { p with hidden := p.hidden.union names }

/-- Sets the space mark of the first token of a list. -/
def respace (spaced : Bool) : List Painted → List Painted
  | [] => []
  | p :: ps => { p with spaced := spaced } :: ps

@[simp] theorem toToken_plain (t : Token) : (plain t).toToken = t := rfl

@[simp] theorem hidden_plain (t : Token) : (plain t).hidden = [] := rfl

@[simp] theorem toToken_hide (names : HideSet) (p : Painted) : (p.hide names).toToken = p.toToken :=
  rfl

theorem mem_hidden_hide {n : String} {names : HideSet} {p : Painted} :
    n ∈ (p.hide names).hidden ↔ n ∈ p.hidden ∨ n ∈ names := by simp [hide]

theorem isHidden_iff {p : Painted} : p.isHidden = true ↔ p.text ∈ p.hidden := by simp [isHidden]

/-- Spacing acts on the tokens alone. -/
theorem map_toToken_respace (b : Bool) (ps : List Painted) :
    (respace b ps).map Painted.toToken = Token.respace b (ps.map Painted.toToken) := by
  cases ps <;> rfl

@[simp] theorem length_respace (b : Bool) (ps : List Painted) :
    (respace b ps).length = ps.length := by cases ps <;> rfl

end Painted

end VariadicMacros
