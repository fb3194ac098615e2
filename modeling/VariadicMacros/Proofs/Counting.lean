/-
**Counting arguments.**

The arguments of a call are followed by the numbers from the bound down to one, and the macro that
receives all of them has as many placeholders as the bound, a parameter after them, and an
ellipsis.  Each argument pushes the numbers one place back, so that the parameter receives the
number of arguments.

Main definitions:

* `VariadicMacros.Header.vaLength`, `VariadicMacros.Header.vaLengthImpl`,
  `VariadicMacros.Header.argN`, `VariadicMacros.Header.rseqN` — the macros that count.

Main results:

* `VariadicMacros.Header.yields_vaLength` — a call is scanned into the number of its arguments;
* `VariadicMacros.Header.expandsTo_vaLength` — **the count is exact for every header**.
-/

import VariadicMacros.Proofs.Dispatch

set_option autoImplicit false

namespace VariadicMacros

open Painted (Shows)
open Token (name number mark)

namespace Header

/-! ### The macros -/

/-- Counts its arguments. -/
def vaLength (o : Options) : Definition :=
  function (o.name "VA_LENGTH") [] true
    (tightCall (o.name "VA_LENGTH_IMPL") [[ellipsisArguments], tightCall (o.name "RSEQ_N") []])

/-- Calls the macro that picks the count, once the numbers are there. -/
def vaLengthImpl (o : Options) : Definition :=
  function (o.name "VA_LENGTH_IMPL") [] true (tightCall (o.name "ARG_N") [[ellipsisArguments]])

/-- The placeholders and the parameter after them. -/
def placeholders (o : Options) : List String := numbered "_" o.bound ++ ["N"]

/-- Picks the argument after the placeholders. -/
def argN (o : Options) : Definition :=
  function (o.name "ARG_N") (placeholders o) true [name "N"]

/-- The numbers from the bound down to one, as arguments. -/
def countdown (o : Options) : List (List Word) :=
  (descending o.bound).map fun n => [.number n]

/-- Gives the numbers. -/
def rseqN (o : Options) : Definition :=
  function (o.name "RSEQ_N") []
    false (separated false ((descending o.bound).map fun n => [number n]))

section Macros

variable {o : Options}

theorem vaLength_mem (o : Options) : vaLength o ∈ macros o :=
  mem_macros .counting (by simp [Family.blocks, counting, variadic, fixed, vaLength])

theorem vaLengthImpl_mem (o : Options) : vaLengthImpl o ∈ macros o :=
  mem_macros .counting (by simp [Family.blocks, counting, variadic, fixed, vaLengthImpl])

theorem argN_mem (ho : o.check = .ok ()) : argN o ∈ macros o := by
  have hbound := (o.check_eq_ok_iff.1 ho).1
  have hwritten : Header.written (numbered "_" o.bound) = numbered "_" o.bound :=
    written_eq_self (by rw [length_numbered]; omega)
  exact mem_macros .counting
    (by simp [Family.blocks, counting, variadic, fixed, argN, placeholders, hwritten])

theorem rseqN_mem (ho : o.check = .ok ()) : rseqN o ∈ macros o := by
  have hbound := (o.check_eq_ok_iff.1 ho).1
  have hwritten : Header.written (descending o.bound) = descending o.bound :=
    written_eq_self (by rw [length_descending]; omega)
  exact mem_macros .counting (by simp [Family.blocks, counting, variadic, fixed, rseqN, hwritten])

theorem filled_vaLength (a : List Word) :
    (vaLength o).filled [a] =
      Word.call (o.name "VA_LENGTH_IMPL") [a, Word.call (o.name "RSEQ_N") [[]]] := by
  simp (disch := decide) [vaLength]
  rfl

theorem filled_vaLengthImpl (a : List Word) :
    (vaLengthImpl o).filled [a] = Word.call (o.name "ARG_N") [a] := by
  simp (disch := decide) [vaLengthImpl]
  rfl

theorem filled_rseqN : (rseqN o).filled [] = Word.list (countdown o) := by
  simp [rseqN, countdown, Function.comp_def]

/-- The body stands for the slot after the placeholders. -/
theorem filled_argN (results : List (List Word)) :
    (argN o).filled results = results.getD o.bound [] := by
  have hindex : (placeholders o).idxOf? "N" = some o.bound := by
    refine List.idxOf?_eq_some_iff.2 ⟨by simp [placeholders], by simp [placeholders], ?_⟩
    intro j hj heq
    have hmem : "N" ∈ numbered "_" o.bound := by
      rw [← heq]
      simp [placeholders, List.getElem_append_left, hj]
    exact notMem_numbered (by decide) _ hmem
  have hbody : (argN o).filling results (name "N") = results.getD o.bound [] :=
    filling_parameter rfl hindex
  rw [Definition.filled, show (argN o).body = [name "N"] from rfl, List.flatMap_singleton, hbody]

/-- The number at a place of the countdown. -/
theorem getD_countdown {i : Nat} (h : i < o.bound) :
    (countdown o).getD i [] = [.number (toString (o.bound - i))] := by
  simp [countdown, descending, List.getD_eq_getElem?_getD, h, -Nat.toString_eq_repr]

end Macros

/-! ### Counting -/

section Counting

variable {o : Options} {table : MacroTable} {arguments : List (List Word)}

/-- The names of the counting macros. -/
def countingSuffixes : List String := ["ARG_N", "VA_LENGTH_IMPL", "RSEQ_N", "VA_LENGTH"]

theorem isArgument_countdown (o : Options) : ∀ a ∈ countdown o, Word.IsArgument a := by
  intro a ha
  obtain ⟨n, -, rfl⟩ := List.mem_map.1 ha
  exact Word.isArgument_number n

theorem ignores_countdown (o : Options) : ∀ a ∈ countdown o, table.Ignores a := by
  intro a ha
  obtain ⟨n, -, rfl⟩ := List.mem_map.1 ha
  exact .number n

theorem isQuiet_rseqN : (rseqN o).isQuiet = true := (isPiece_descending o.bound).quiet

/-- Expanding the arguments puts the numbers behind them. -/
theorem yields_countdown (ho : o.check = .ok ()) (htable : Installed o table)
    (hne : arguments ≠ []) (hignores : ∀ a ∈ arguments, table.Ignores a)
    {endings : List String} (hfree : "RSEQ_N" ∉ endings) :
    Scan.Yields table 1 1 (endings.map o.name)
      (Word.list (arguments ++ [Word.call (o.name "RSEQ_N") [[]]]))
      (("RSEQ_N" :: endings).map o.name) (Word.list (arguments ++ countdown o)) := by
  have hcountdown : countdown o ≠ [] := by
    have hbound := (o.check_eq_ok_iff.1 ho).1
    rw [ne_eq, ← List.length_eq_zero_iff, countdown, List.length_map, length_descending]
    omega
  have hsplit : ∀ ws : List Word, Word.list (arguments ++ [ws]) =
      Word.list arguments ++ ([.mark ","] ++ ws) := by
    intro ws
    rw [← Word.list_list_append hne, Word.list_cons_cons, Word.list_singleton]
    rfl
  -- Only the call behind the last comma is rewritten, and it is rewritten to the numbers.
  rw [← Word.list_append_list arguments hcountdown, hsplit, hsplit]
  intro ps hps
  obtain ⟨as, bs, rfl, has, hbs⟩ := hps.exists_append
  obtain ⟨comma, bs, rfl, hcomma, hbs⟩ := hbs.exists_append
  obtain ⟨qs, hqs, hcall⟩ := exists_rewrites_macro 0 htable (rseqN_mem ho) rfl isQuiet_rseqN rfl
    hfree (List.Subset.refl _) rfl (by decide) hbs
    (.of_ignores (by simp [rseqN, function, Definition.slots]) (List.Subset.refl _))
  have hsub : endings.map o.name ⊆ ("RSEQ_N" :: endings).map o.name :=
    List.map_subset _ (List.subset_cons_self _ _)
  have hnumbers : Shows (("RSEQ_N" :: endings).map o.name) qs (Word.list (countdown o)) := by
    rw [← filled_rseqN]
    exact hqs
  refine ⟨as ++ (comma ++ qs), (has.mono hsub).append ((hcomma.mono hsub).append hnumbers), ?_⟩
  have harguments : Scan.Rewrites table 1 0 as as [] :=
    .of_ignores (has.words ▸ .list hignores)
  have hmark : Scan.Rewrites table 1 0 comma comma [] := .of_ignores (hcomma.words ▸ .mark ",")
  have hdone : Scan.Rewrites table 1 0 qs qs [] :=
    .of_ignores (hnumbers.words ▸ .list (ignores_countdown o))
  exact (harguments.append (hmark.append (hcall.trans hdone))).reaches

/-- Behind the placeholders stands the number of the arguments. -/
theorem getD_slots_argN (hne : arguments ≠ []) (hlength : arguments.length ≤ o.bound) :
    ((argN o).slots (arguments ++ countdown o)).getD o.bound [] =
      [.number (toString arguments.length)] := by
  have hpos : 0 < arguments.length := List.length_pos_iff.2 hne
  have hcountdown : (countdown o).length = o.bound := by simp [countdown]
  have hslots : (argN o).slots (arguments ++ countdown o) =
      (arguments ++ countdown o).take (o.bound + 1) ++
        [Word.list ((arguments ++ countdown o).drop (o.bound + 1))] := by
    simp [Definition.slots, argN, function, placeholders]
  have hnumber := getD_countdown (o := o) (i := o.bound - arguments.length) (by omega)
  have hcount : o.bound - (o.bound - arguments.length) = arguments.length := by omega
  rw [hcount, List.getD_eq_getElem?_getD] at hnumber
  -- The arguments push the countdown to the right, and its number at that place is their count.
  rw [hslots, List.getD_eq_getElem?_getD, List.getElem?_append_left, List.getElem?_take_of_lt,
    List.getElem?_append_right hlength, hnumber]
  · omega
  · simp only [List.length_take, List.length_append, hcountdown]
    omega

/-- A call is scanned into the number of its arguments. -/
theorem yields_vaLength (ho : o.check = .ok ()) (htable : Installed o table)
    (hne : arguments ≠ []) (hlength : arguments.length ≤ o.bound)
    (hargument : ∀ a ∈ arguments, Word.IsArgument a)
    (hignores : ∀ a ∈ arguments, table.Ignores a) {endings : List String}
    (hfree : ∀ s ∈ countingSuffixes, s ∉ endings) :
    Scan.Yields table 2 4 (endings.map o.name) (Word.call (o.name "VA_LENGTH") arguments)
      ((countingSuffixes ++ endings).map o.name) [.number (toString arguments.length)] := by
  have hpos : 0 < arguments.length := List.length_pos_iff.2 hne
  have hcountdown : (countdown o).length = o.bound := by simp [countdown]
  refine .of_rewrites (fun ps hps => ?_) (.number _)
  -- The numbers are appended as a call that is expanded with the arguments of the next macro.
  obtain ⟨qs, hqs, hlengthCall⟩ := exists_rewrites_macro 1 htable (vaLength_mem o) rfl
    rfl rfl (hfree _ (by decide)) (List.Subset.refl _)
    (takes_function hne (Nat.zero_le _))
    hargument hps (.of_forall_ignores (vaLength o) hignores)
  have hslots : (vaLength o).slots arguments = [Word.list arguments] := rfl
  rw [hslots, filled_vaLength, Word.call_list_append _ hne] at hqs
  have hnumbers := yields_countdown ho htable hne hignores
    (show "RSEQ_N" ∉ "VA_LENGTH" :: endings by simp [hfree "RSEQ_N" (by decide)])
  obtain ⟨rs, hrs, himplCall⟩ := exists_rewrites_macro 1 htable (vaLengthImpl_mem o) rfl rfl rfl
    (by simp [hfree "VA_LENGTH_IMPL" (by decide)]) (List.subset_cons_self _ _)
    (takes_function (by simp) (Nat.zero_le _))
    (by
      intro a ha
      rcases List.mem_append.1 ha with ha | ha
      · exact hargument a ha
      · rw [List.mem_singleton.1 ha]
        exact Word.isArgument_call _ (by decide))
    hqs (.cons hnumbers .nil)
  have hparts : arguments ++ countdown o ≠ [] := by simp [hne]
  rw [filled_vaLengthImpl, Word.call_list_append _ hparts, List.append_nil] at hrs
  have hignores' : ∀ a ∈ arguments ++ countdown o, table.Ignores a := by
    intro a ha
    rcases List.mem_append.1 ha with ha | ha
    · exact hignores a ha
    · exact ignores_countdown o a ha
  obtain ⟨ts, hts, hpickCall⟩ := exists_rewrites_macro 1 htable (argN_mem ho) rfl rfl rfl
    (by simp [hfree "ARG_N" (by decide)]) (List.Subset.refl _)
    (takes_function (by simp [hne]) (by simp [placeholders, hcountdown]; omega))
    (by
      intro a ha
      rcases List.mem_append.1 ha with ha | ha
      · exact hargument a ha
      · exact isArgument_countdown o a ha)
    hrs (.of_forall_ignores (argN o) hignores')
  rw [filled_argN, getD_slots_argN hne hlength] at hts
  exact ⟨ts, hts, (hlengthCall.trans himplCall).trans hpickCall⟩

end Counting

/-- **The count is exact for every header**: with at least one argument and no more than the
bound, a call expands to the number of its arguments. -/
theorem expandsTo_vaLength {o : Options} (ho : o.check = .ok ()) (time : Timestamp) :
    ∃ table, table? o time = some table ∧
      ∀ arguments : List (List Word), 1 ≤ arguments.length → arguments.length ≤ o.bound →
        (∀ a ∈ arguments, Word.IsArgument a ∧ table.Ignores a) →
          table.ExpandsTo {} (Word.call (o.name "VA_LENGTH") arguments)
            [.number (toString arguments.length)] := by
  obtain ⟨table, htable⟩ : ∃ table, table? o time = some table := ⟨_, table?_eq ho time⟩
  refine ⟨table, htable, fun arguments hpos hlength harguments => ?_⟩
  have hfree : ∀ s ∈ countingSuffixes, s ∉ ([] : List String) := by simp
  have hyields := yields_vaLength ho (installed_table ho htable) (List.length_pos_iff.1 hpos)
    hlength (fun a ha => (harguments a ha).1) (fun a ha => (harguments a ha).2) hfree
  exact hyields.expandsTo (by decide) (by decide)

/-- An empty argument and one with a comma in parentheses count as one each. -/
theorem expandsTo_vaLength_three :
    ∃ table, table? { bound := 3 } ⟨2024, 1, 1, 0, 0, 0, 0⟩ = some table ∧
      ∃ e, table.expand {} "ZEN_VA_LENGTH(, (a, b), x)" = .ok e ∧
        e.tokens.map Token.word = [.number "3"] := by
  have ho : Options.check { bound := 3 } = .ok () := by decide
  obtain ⟨table, htable, hcount⟩ := expandsTo_vaLength ho ⟨2024, 1, 1, 0, 0, 0, 0⟩
  have hnone : ∀ n ∈ ["a", "b", "x"], table[n]? = none := by
    intro n hn
    refine getElem?_of_foreign ho htable ?_ ?_
    · revert n
      decide
    · revert n
      decide
  have hlex : Token.lex "ZEN_VA_LENGTH(, (a, b), x)" = .ok
      [name "ZEN_VA_LENGTH", mark "(", mark ",", (mark "(").afterSpace, name "a", mark ",",
        (name "b").afterSpace, mark ")", mark ",", (name "x").afterSpace, mark ")"] := by
    cbv
  have hwords : ∀ a ∈ [[], [Word.mark "(", .name "a", .mark ",", .name "b", .mark ")"],
      [Word.name "x"]], Word.IsArgument a ∧
        ∀ w ∈ a, w.kind = .identifier → w.text ∈ ["a", "b", "x"] := by decide
  have hexpands := hcount _ (by decide) (by decide) (fun a ha => ⟨(hwords a ha).1,
    fun w hw hkind => hnone _ ((hwords a ha).2 w hw hkind)⟩)
  exact ⟨table, htable, hexpands _ _ hlex rfl⟩

end Header

end VariadicMacros
