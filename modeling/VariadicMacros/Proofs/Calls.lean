/-
**Calls of the macros that a table holds.**

The replacement lists of a header are calls of its own macros, with parameters among the arguments:
filling one in is filling in the arguments of the call.  A call of a macro of the header is
rewritten to its filled-in body as long as its own name is not hidden, and so is a call of a macro
that is added to the header, whose name the header never hides.

Main definitions:

* `VariadicMacros.Header.IsAdded` — a macro of its own that is added to a header.

Main results:

* `VariadicMacros.Header.flatMap_filling_separated` — filling in a list of arguments is
  filling in every argument;
* `VariadicMacros.Header.exists_rewrites_macro` — a call of a macro of the header;
* `VariadicMacros.Header.IsAdded.exists_rewrites_call` — **a call of an added macro puts out its
  filled-in body**.
-/

import VariadicMacros.Proofs.LoadedHeader
import VariadicMacros.Proofs.Rewriting

set_option autoImplicit false

namespace VariadicMacros

open Painted (Shows)
open Token (name number mark)

namespace Header

/-! ### Words of replacement lists -/

section Filling

variable {d : Definition} {results : List (List Word)}

/-- The token of a parameter gives way to the result of its slot. -/
theorem filling_parameter {names : List String} (hd : d.parameters = some names) {n : String}
    {i : Nat} (hi : names.idxOf? n = some i) : d.filling results (name n) = results.getD i [] := by
  simp [Definition.filling, Definition.parameterIndex?, name, hd, hi]

/-- A name that is not a parameter stays. -/
theorem filling_name {names : List String} (hd : d.parameters = some names) {n : String}
    (h : ∀ p ∈ variadicName :: names, n ≠ p) : d.filling results (name n) = [.name n] := by
  have hi : names.idxOf? n = none := List.idxOf?_eq_none_iff.2 fun hmem => h n (by simp [hmem]) rfl
  have hindex : d.parameterIndex? (name n) = none := by
    simp [Definition.parameterIndex?, name, hd, hi, h variadicName (by simp)]
  rw [Definition.filling, hindex]
  rfl

theorem filling_of_kind_ne {t : Token} (h : t.kind ≠ .identifier) :
    d.filling results t = [t.word] := by
  have hindex : d.parameterIndex? t = none := if_neg h
  rw [Definition.filling, hindex]

@[simp] theorem filling_number (text : String) :
    d.filling results (number text) = [.number text] :=
  filling_of_kind_ne (by simp [number])

@[simp] theorem filling_mark (text : String) : d.filling results (mark text) = [.mark text] :=
  filling_of_kind_ne (by simp [mark])

@[simp] theorem filling_afterSpace (t : Token) :
    d.filling results t.afterSpace = d.filling results t := rfl

/-- Spaces do not change what is filled in. -/
@[simp] theorem flatMap_filling_respace (b : Bool) (ts : List Token) :
    (Token.respace b ts).flatMap (d.filling results) = ts.flatMap (d.filling results) := by
  cases ts <;> rfl

/-- Filling in a list of arguments is filling in every argument. -/
@[simp] theorem flatMap_filling_separated (b : Bool) (parts : List (List Token)) :
    (separated b parts).flatMap (d.filling results) =
      Word.list (parts.map fun ts => ts.flatMap (d.filling results)) := by
  cases parts with
  | nil => rfl
  | cons ts parts =>
      rw [separated]
      induction parts generalizing ts with
      | nil => simp
      | cons us parts ih =>
          have hrest := ih us
          rw [List.flatMap_append] at hrest
          simp only [List.map_cons, List.flatMap_cons, List.flatMap_append, List.cons_append,
            filling_mark, flatMap_filling_respace, Word.list_cons_cons] at hrest ⊢
          rw [hrest]
          simp

@[simp] theorem flatMap_filling_parenthesized (ts : List Token) :
    (parenthesized ts).flatMap (d.filling results) =
      .mark "(" :: (ts.flatMap (d.filling results) ++ [.mark ")"]) := by
  simp [parenthesized]

@[simp] theorem flatMap_filling_tightCall (f : String) (parts : List (List Token)) :
    (tightCall f parts).flatMap (d.filling results) =
      d.filling results (name f) ++
        Word.parens (parts.map fun ts => ts.flatMap (d.filling results)) := by
  simp [tightCall, Word.parens]

@[simp] theorem flatMap_filling_looseCall (f : String) (parts : List (List Token)) :
    (looseCall f parts).flatMap (d.filling results) =
      d.filling results (name f) ++
        Word.parens (parts.map fun ts => ts.flatMap (d.filling results)) := by
  simp [looseCall, Word.parens]

end Filling

section Function

variable {macroName : String} {names : List String} {body : List Token}
  {results : List (List Word)}

@[simp] theorem filled_function (variadic : Bool) :
    (function macroName names variadic body).filled results =
      body.flatMap ((function macroName names variadic body).filling results) := rfl

/-- A parameter gives way to the result at its place among the parameters. -/
@[simp] theorem filling_function_of_mem {variadic : Bool} {n : String} (h : n ∈ names) :
    (function macroName names variadic body).filling results (name n) =
      results.getD (names.idxOf n) [] := by
  obtain ⟨i, hi⟩ : ∃ i, names.idxOf? n = some i := by
    refine Option.ne_none_iff_exists'.1 fun hnone => ?_
    exact List.idxOf?_eq_none_iff.1 hnone h
  rw [List.idxOf_eq_getD_idxOf?, hi]
  exact filling_parameter rfl hi

/-- The ellipsis gives way to the last result. -/
@[simp] theorem filling_function_ellipsis (h : variadicName ∉ names) :
    (function macroName names true body).filling results ellipsisArguments =
      results.getD names.length [] := by
  have hi : names.idxOf? variadicName = none := List.idxOf?_eq_none_iff.2 h
  simp [Definition.filling, Definition.parameterIndex?, function, name, ellipsisArguments, hi]

/-- The name of a macro stays if no parameter ends like it. -/
@[simp] theorem filling_function_macro {variadic : Bool} {o : Options} {suffix : String}
    (h : ∀ p ∈ variadicName :: names, ¬ suffix.toList <:+ p.toList) :
    (function macroName names variadic body).filling results (name (o.name suffix)) =
      [.name (o.name suffix)] :=
  filling_name rfl fun p hp => o.name_ne_of_not_suffix (h p hp)

end Function

/-- A variadic macro takes at least as many arguments as it has parameters. -/
theorem takes_function {macroName : String} {names : List String} {body : List Token}
    {arguments : List (List Word)} (hne : arguments ≠ [])
    (hlength : names.length ≤ arguments.length) :
    (function macroName names true body).takes arguments = true := by
  simp [Definition.takes, Definition.demand, function, ArgumentDemand.accepts, hne, hlength]

/-! ### The macros of the families -/

variable {o : Options} {table : MacroTable}

/-- The macros of a family are macros of the header. -/
theorem mem_macros (f : Family) {d : Definition} (h : d ∈ definitions (f.blocks o)) :
    d ∈ macros o := by
  have hf : f ∈ families := by cases f <;> decide
  rw [definitions, List.mem_filterMap] at h
  obtain ⟨l, hl, hd⟩ := h
  obtain ⟨b, hb, hl⟩ := List.mem_flatMap.1 hl
  refine List.mem_filterMap.2 ⟨l, List.mem_flatMap.2 ⟨b, ?_, hl⟩, hd⟩
  exact List.mem_flatMap.2 ⟨f, hf, hb⟩

/-- The entries of a table are macros of the header. -/
theorem mem_macros_table (f : Family) (first count : Nat) {entry : Nat → Line}
    (h : Block.table first count entry ∈ f.blocks o) {n : Nat} {d : Definition} (hfirst : first ≤ n)
    (hn : n < first + count) (hd : (entry n).definition? = some d) : d ∈ macros o := by
  have hentry : entry n ∈ (Block.table first count entry).lines :=
    List.mem_map_of_mem (List.mem_range'_1.2 ⟨hfirst, hn⟩)
  exact mem_macros f (List.mem_filterMap.2 ⟨entry n, List.mem_flatMap.2 ⟨_, h, hentry⟩, hd⟩)

theorem name_notMem_map {suffix : String} {endings : List String} (h : suffix ∉ endings) :
    o.name suffix ∉ endings.map o.name := by
  intro hmem
  obtain ⟨other, hother, heq⟩ := List.mem_map.1 hmem
  exact h ((o.name_inj).1 heq ▸ hother)

/-- A call of a macro of the header is rewritten to its filled-in body. -/
theorem exists_rewrites_macro (depth : Nat) (htable : Installed o table) {d : Definition}
    (hd : d ∈ macros o) (hfunction : d.isFunctionLike = true) (hquiet : d.isQuiet = true)
    {suffix : String}
    (hname : d.name = o.name suffix) {endings endings' : List String} (hfree : suffix ∉ endings)
    (hsub : endings ⊆ endings') {arguments : List (List Word)}
    (htakes : d.takes arguments = true) (hargument : ∀ a ∈ arguments, Word.IsArgument a)
    {ps : List Painted} (hps : Shows (endings.map o.name) ps (Word.call (o.name suffix) arguments))
    {cost : Nat} {results : List (List Word)}
    (hslots : Scan.Prepares table depth (endings.map o.name) (endings'.map o.name) cost
      (d.slots arguments) results) :
    ∃ qs, Shows ((suffix :: endings').map o.name) qs (d.filled results) ∧
      Scan.Rewrites table (depth + 1) (cost + 1) ps [] qs := by
  obtain ⟨p, ps, rfl, hp, hhidden, hps⟩ := hps.exists_cons
  rw [← hname] at hp
  have hfree' : d.name ∉ p.hidden := by
    rw [hname]
    exact fun hmem => name_notMem_map hfree (hhidden hmem)
  rw [List.map_cons, ← hname]
  exact Scan.exists_rewrites_call depth (htable d hd) hfunction hquiet hp hfree' htakes hargument
    (List.map_subset _ hsub) hps hslots

/-- The name of a macro of the header is called or passed over. -/
theorem Installed.isCallable (htable : Installed o table) {d : Definition} (hd : d ∈ macros o)
    (hfunction : d.isFunctionLike = true) : Scan.IsCallable table d.name := by
  intro e he
  rw [htable d hd, Option.some_inj] at he
  exact he ▸ hfunction

/-! ### Macros that are added to a header -/

/-- A function-like macro is added to the table of a header: it is not named like a macro of the
header, and its body has no operators and names no macro. -/
structure IsAdded (o : Options) (table : MacroTable) (d : Definition) : Prop where
  isFunctionLike : d.isFunctionLike = true
  isQuiet : d.isQuiet = true
  fresh : d.name ∉ (macros o).map Definition.name
  ignoresBody : (table.define d).IgnoresBody d

namespace IsAdded

variable {d : Definition}

theorem getElem?_name (table : MacroTable) (d : Definition) :
    (table.define d)[d.name]? = some d := by
  rw [MacroTable.getElem?_define, if_pos rfl]

/-- Macros of the header do not hide the name of an added one. -/
theorem name_notMem (h : IsAdded o table d) {endings : List String} (hsub : endings ⊆ suffixes o) :
    d.name ∉ endings.map o.name := by
  intro hmem
  refine h.fresh ?_
  rw [map_name_macros]
  exact List.map_subset _ hsub hmem

theorem isCallable (h : IsAdded o table d) : Scan.IsCallable (table.define d) d.name := by
  intro e he
  rw [getElem?_name, Option.some_inj] at he
  exact he ▸ h.isFunctionLike

/-- A name that can only be that of a function-like macro stays one. -/
theorem isCallable_define (h : IsAdded o table d) {n : String} (hn : Scan.IsCallable table n) :
    Scan.IsCallable (table.define d) n := by
  intro e he
  rw [MacroTable.getElem?_define] at he
  split at he
  · exact Option.some_inj.1 he ▸ h.isFunctionLike
  · exact hn e he

/-- What comes of a call of an added macro names no macro. -/
theorem ignores_filled (h : IsAdded o table d) {arguments : List (List Word)}
    (hignores : ∀ a ∈ arguments, (table.define d).Ignores a) :
    (table.define d).Ignores (d.filled (d.slots arguments)) :=
  .filled h.ignoresBody (.slots d hignores)

/-- **A call of an added macro puts out its filled-in body.** -/
theorem exists_rewrites_call (h : IsAdded o table d) (depth : Nat) {endings : List String}
    (hsub : endings ⊆ suffixes o) {arguments : List (List Word)}
    (htakes : d.takes arguments = true) (hargument : ∀ a ∈ arguments, Word.IsArgument a)
    (hignores : ∀ a ∈ arguments, (table.define d).Ignores a) {ps : List Painted}
    (hps : Shows (endings.map o.name) ps (Word.call d.name arguments)) :
    ∃ qs, Shows (d.name :: endings.map o.name) qs (d.filled (d.slots arguments)) ∧
      Scan.Rewrites (table.define d) (depth + 1) 1 ps qs [] := by
  obtain ⟨p, ps, rfl, hp, hhidden, hps⟩ := hps.exists_cons
  obtain ⟨qs, hqs, hcall⟩ := Scan.exists_rewrites_call depth (getElem?_name table d)
    h.isFunctionLike h.isQuiet hp (fun hmem => h.name_notMem hsub (hhidden hmem)) htakes hargument
    (List.Subset.refl _) hps (.of_forall_ignores d hignores)
  have hdone := h.ignores_filled hignores
  exact ⟨qs, hqs, hcall.trans (.of_ignores (hqs.words ▸ hdone))⟩

/-- A call of an added macro alone is scanned into its filled-in body. -/
theorem yields_call (h : IsAdded o table d) (depth : Nat) {endings : List String}
    (hsub : endings ⊆ suffixes o) {arguments : List (List Word)}
    (htakes : d.takes arguments = true) (hargument : ∀ a ∈ arguments, Word.IsArgument a)
    (hignores : ∀ a ∈ arguments, (table.define d).Ignores a) :
    Scan.Yields (table.define d) (depth + 1) 1 (endings.map o.name) (Word.call d.name arguments)
      (d.name :: endings.map o.name) (d.filled (d.slots arguments)) := by
  intro ps hps
  obtain ⟨qs, hqs, hcall⟩ := h.exists_rewrites_call depth hsub htakes hargument hignores hps
  exact ⟨qs, hqs, hcall.reaches⟩

end IsAdded

end Header

end VariadicMacros
