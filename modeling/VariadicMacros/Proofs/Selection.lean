/-
**Selecting an argument by its position.**

A position is dispatched to the entry of a table that names one parameter more than the position
and stands for the last of them; what follows it is taken by the ellipsis.  A position within the
bound that has no argument is dispatched to an entry that is given too few arguments, and a
position past the bound to the name of an entry that is not there.

Main definitions:

* `VariadicMacros.Header.getVaArg`, `VariadicMacros.Header.getEntry` — the macro that selects, and
  the entries of its table.

Main results:

* `VariadicMacros.Header.exists_rewrites_getVaArg` — a selection is rewritten to the argument at
  its position;
* `VariadicMacros.Header.fails_getVaArg`, `VariadicMacros.Header.exists_rewrites_pastedEntry` —
  what becomes of positions without an argument, or past the bound;
* `VariadicMacros.Header.expandsTo_selection` — **the selector is exact for every position and
  every argument list**.
-/

import VariadicMacros.Proofs.Dispatch
import VariadicMacros.Proofs.RefusedCalls

set_option autoImplicit false

namespace VariadicMacros

open Painted (Shows)
open Token (name number mark)

namespace Header

/-- Selects an argument by its position. -/
def getVaArg (o : Options) : Definition :=
  function (o.name "GET_VA_ARG") ["n"] true
    (looseCall (o.name "CONCAT") [[name (o.name "GET_VA_ARG_")], [name "n"]] ++
      parenthesized [ellipsisArguments])

/-- The entry of the selection table for a position. -/
def getEntry (o : Options) (index : Nat) : Definition :=
  function (o.name ("GET_VA_ARG_" ++ toString index)) (numbered "arg" (index + 1)) true
    [name ("arg" ++ toString index)]

theorem getVaArg_mem (o : Options) : getVaArg o ∈ macros o :=
  mem_macros .selection (by simp [Family.blocks, selection, variadic, getVaArg, Line.blank])

theorem getEntry_mem {o : Options} {index : Nat} (h : index < o.bound) :
    getEntry o index ∈ macros o := by
  have hentry : (selectionEntry o index).definition? = some (getEntry o index) := by
    rw [selectionEntry, o.name_append_toString]
    rfl
  exact mem_macros_table .selection 0 o.bound (by simp [Family.blocks, selection])
    (Nat.zero_le _) (by omega) hentry

section Selecting

variable {o : Options} {table : MacroTable} {index : Nat}

theorem filled_getVaArg (n v : List Word) :
    (getVaArg o).filled [n, v] =
      Word.call (o.name "CONCAT") [[.name (o.name "GET_VA_ARG_")], n] ++ Word.parens [v] := by
  simp (disch := decide) [getVaArg, Word.call, Word.parens]
  rfl

/-- An entry stands for the slot at its position. -/
theorem filled_getEntry (results : List (List Word)) :
    (getEntry o index).filled results = results.getD index [] := by
  have hindex : (numbered "arg" (index + 1)).idxOf? ("arg" ++ toString index) = some index := by
    refine List.idxOf?_eq_some_iff.2 ⟨by simp, by simp [numbered, -Nat.toString_eq_repr], ?_⟩
    intro j hj heq
    simp only [numbered, List.getElem_map, List.getElem_range] at heq
    have hjindex : j = index := Text.toString_inj ((String.append_right_inj _).1 heq)
    omega
  have hbody : (getEntry o index).filling results (name ("arg" ++ toString index)) =
      results.getD index [] := filling_parameter rfl hindex
  rw [Definition.filled, show (getEntry o index).body = [name ("arg" ++ toString index)] from rfl,
    List.flatMap_singleton, hbody]

/-- An entry of the table is not named like the macro that selects. -/
theorem numbered_ne_getVaArg (index : Nat) :
    ("GET_VA_ARG_" ++ toString index : String) ≠ "GET_VA_ARG" := by
  intro heq
  exact numbered_notMem_plainSuffixes (show "GET_VA_ARG_" ∈ dispatchStems by decide) index
    (heq ▸ (by decide : "GET_VA_ARG" ∈ plainSuffixes))

/-- A selection is rewritten to a dispatch of its position that the arguments follow. -/
theorem exists_rewrites_selection (depth : Nat) (htable : Installed o table)
    {items : List (List Word)} (hne : items ≠ []) (hargument : ∀ a ∈ items, Word.IsArgument a)
    (hignores : ∀ a ∈ items, table.Ignores a) {endings : List String}
    (hfree : "GET_VA_ARG" ∉ endings) {ps : List Painted} (hps : Shows (endings.map o.name) ps
      (Word.call (o.name "GET_VA_ARG") ([.number (toString index)] :: items))) :
    ∃ qs, Shows (("GET_VA_ARG" :: endings).map o.name) qs
        (Word.call (o.name "CONCAT")
            [[.name (o.name "GET_VA_ARG_")], [.number (toString index)]] ++ Word.parens items) ∧
      Scan.Rewrites table (depth + 1) 1 ps [] qs := by
  have hargument' : ∀ a ∈ [.number (toString index)] :: items, Word.IsArgument a :=
    List.forall_mem_cons.2 ⟨Word.isArgument_number _, hargument⟩
  have hignores' : ∀ a ∈ [.number (toString index)] :: items, table.Ignores a :=
    List.forall_mem_cons.2 ⟨.number _, hignores⟩
  obtain ⟨qs, hqs, hcall⟩ := exists_rewrites_macro depth htable (getVaArg_mem o) rfl rfl
    rfl hfree (List.Subset.refl _)
    (takes_function (by simp) (by simp))
    hargument' hps (.of_forall_ignores (getVaArg o) hignores')
  have hslots : (getVaArg o).slots ([.number (toString index)] :: items) =
      [[.number (toString index)], Word.list items] := rfl
  have hparens : Word.parens [Word.list items] = Word.parens items :=
    Word.parens_append_list [] hne
  rw [hslots, filled_getVaArg, hparens] at hqs
  exact ⟨qs, hqs, hcall⟩

/-- **A selection is rewritten to the argument at its position.** -/
theorem exists_rewrites_getVaArg (depth : Nat) (ho : o.check = .ok ()) (htable : Installed o table)
    (hcallable : Scan.IsCallable table (o.name "GET_VA_ARG_")) {items : List (List Word)}
    (hindex : index < items.length) (hbound : index < o.bound)
    (hargument : ∀ a ∈ items, Word.IsArgument a) (hignores : ∀ a ∈ items, table.Ignores a)
    {endings : List String} (hfree : "GET_VA_ARG" ∉ endings) (hconcat : "CONCAT" ∉ endings)
    (himpl : "CONCAT_IMPL" ∉ endings) (hentry : "GET_VA_ARG_" ++ toString index ∉ endings)
    {ps : List Painted} (hps : Shows (endings.map o.name) ps
      (Word.call (o.name "GET_VA_ARG") ([.number (toString index)] :: items))) :
    ∃ qs, Shows ((("GET_VA_ARG_" ++ toString index) :: "GET_VA_ARG" :: endings).map o.name) qs
        (items.getD index []) ∧
      Scan.Rewrites table (depth + 1) 4 ps [] qs := by
  have hne : items ≠ [] := List.ne_nil_of_length_pos (Nat.zero_lt_of_lt hindex)
  obtain ⟨qs, hqs, hcall⟩ :=
    exists_rewrites_selection depth htable hne hargument hignores hfree hps
  obtain ⟨rs, hrs, hselect⟩ := exists_rewrites_entry depth ho htable (by decide)
    hcallable (getEntry_mem hbound) rfl rfl rfl (by simp [hconcat]) (by simp [himpl])
    (fun hmem => (List.mem_cons.1 hmem).elim (numbered_ne_getVaArg index) hentry)
    (takes_function hne (by simpa using Nat.succ_le_of_lt hindex))
    hargument hqs (.of_forall_ignores (getEntry o index) hignores)
  -- The parameters of the entry go up to its position, and what follows fills its ellipsis.
  have hslot : ((getEntry o index).slots items).getD index [] = items.getD index [] := by
    have hslots : (getEntry o index).slots items =
        items.take (index + 1) ++ [Word.list (items.drop (index + 1))] := by
      simp [Definition.slots, getEntry, function]
    rw [hslots, List.getD_eq_getElem?_getD, List.getElem?_append_left,
      List.getElem?_take_of_lt (Nat.lt_succ_self index), ← List.getD_eq_getElem?_getD]
    rw [List.length_take]
    omega
  rw [filled_getEntry, hslot] at hrs
  exact ⟨rs, hrs, hcall.trans hselect⟩

/-- A selection is rewritten to the pasted name of an entry that the arguments follow, whether there
is such an entry or not. -/
theorem exists_rewrites_pastedEntry (depth : Nat) (ho : o.check = .ok ())
    (htable : Installed o table) (hcallable : Scan.IsCallable table (o.name "GET_VA_ARG_"))
    {items : List (List Word)} (hne : items ≠ []) (hargument : ∀ a ∈ items, Word.IsArgument a)
    (hignores : ∀ a ∈ items, table.Ignores a) {ps : List Painted}
    (hps : Shows (([] : List String).map o.name) ps
      (Word.call (o.name "GET_VA_ARG") ([.number (toString index)] :: items))) :
    ∃ qs, Shows (["CONCAT_IMPL", "CONCAT", "GET_VA_ARG"].map o.name) qs
        (Word.call (o.name ("GET_VA_ARG_" ++ toString index)) items) ∧
      Scan.Rewrites table (depth + 1) 3 ps [] qs := by
  obtain ⟨qs, hqs, hcall⟩ :=
    exists_rewrites_selection depth htable hne hargument hignores (by simp) hps
  obtain ⟨rs, hrs, hpasted⟩ := exists_rewrites_pasted depth ho htable (by decide) hcallable
    (by simp) (by simp) hqs
  exact ⟨rs, hrs, hcall.trans hpasted⟩

/-- A selection within the bound but past the arguments gets to a call that fails. -/
theorem fails_getVaArg (depth : Nat) (ho : o.check = .ok ()) (htable : Installed o table)
    (hcallable : Scan.IsCallable table (o.name "GET_VA_ARG_")) {items : List (List Word)}
    (hne : items ≠ []) (hindex : items.length ≤ index) (hbound : index < o.bound)
    (hargument : ∀ a ∈ items, Word.IsArgument a) (hignores : ∀ a ∈ items, table.Ignores a)
    {ps : List Painted} (hps : Shows (([] : List String).map o.name) ps
      (Word.call (o.name "GET_VA_ARG") ([.number (toString index)] :: items))) :
    Scan.Fails table (depth + 1) 4 ps (.argumentCount (o.name ("GET_VA_ARG_" ++ toString index))
      (.atLeast (index + 1)) items.length) := by
  obtain ⟨qs, hqs, hpasted⟩ :=
    exists_rewrites_pastedEntry depth ho htable hcallable hne hargument hignores hps
  obtain ⟨p, qs, rfl, hp, hhidden, hqs⟩ := hqs.exists_cons
  have hfree : (getEntry o index).name ∉ p.hidden := by
    have hplain : "GET_VA_ARG_" ++ toString index ∉ ["CONCAT_IMPL", "CONCAT", "GET_VA_ARG"] :=
      numbered_notMem (by decide) index (by decide)
    exact fun hmem => name_notMem_map hplain (hhidden hmem)
  -- The entry has one parameter more than its position.
  have hlength : (numbered "arg" (index + 1)).length = index + 1 := by simp
  have hdemand : (getEntry o index).demand = .atLeast (index + 1) := congrArg _ hlength
  have htakes : (getEntry o index).takes items = false := by
    simp only [Definition.takes, hdemand, ArgumentDemand.accepts]
    simp
    omega
  have hfails := Scan.fails_call (htable _ (getEntry_mem hbound)) rfl hp hfree hne hargument
    htakes hqs (depth + 1) []
  rw [List.append_nil, hdemand] at hfails
  exact .of_reaches hpasted.reaches hfails

end Selecting

/-- **The selector is exact for every position and every argument list**: it stands for the argument
at the position where there is one, it fails where the bound allows for more arguments than there
are, and past the bound it leaves the name of an entry that is not there. -/
theorem expandsTo_selection {o : Options} (ho : o.check = .ok ()) (time : Timestamp)
    (hguard : ¬ (o.name "GET_VA_ARG_").toList <+: o.guard.toList) :
    ∃ table, table? o time = some table ∧
      ∀ (i : Nat) (items : List (List Word)), items ≠ [] → (∀ a ∈ items, Word.IsArgument a) →
        (∀ a ∈ items, table.Ignores a) →
        (∀ a, items[i]? = some a → i < o.bound → table.ExpandsTo {}
          (Word.call (o.name "GET_VA_ARG") ([.number (toString i)] :: items)) a) ∧
        (items.length ≤ i → i < o.bound → table.Refuses {}
          (Word.call (o.name "GET_VA_ARG") ([.number (toString i)] :: items))
          (.argumentCount (o.name ("GET_VA_ARG_" ++ toString i)) (.atLeast (i + 1))
            items.length)) ∧
        (o.bound ≤ i → table[o.name ("GET_VA_ARG_" ++ toString i)]? = none ∧ table.ExpandsTo {}
          (Word.call (o.name "GET_VA_ARG") ([.number (toString i)] :: items))
          (Word.call (o.name ("GET_VA_ARG_" ++ toString i)) items)) := by
  obtain ⟨table, htable⟩ : ∃ table, table? o time = some table := ⟨_, table?_eq ho time⟩
  have hinstalled := installed_table ho htable
  have hcallable := isCallable_stem ho htable (by decide) hguard
  refine ⟨table, htable, fun i items hne hargument hignores => ⟨?_, ?_, ?_⟩⟩
  · intro a ha hbound
    obtain ⟨hindex, rfl⟩ := List.getElem?_eq_some_iff.1 ha
    have hselected := hignores _ (List.getElem_mem hindex)
    have hyields : Scan.Yields table (0 + 1) 4 (([] : List String).map o.name) _ _ items[i] :=
      .of_rewrites (fun ps hps => by
        simpa [hindex] using exists_rewrites_getVaArg 0 ho hinstalled hcallable hindex hbound
          hargument hignores (by simp) (by simp) (by simp) (by simp) hps) hselected
    exact hyields.expandsTo (by decide) (by decide)
  · intro hindex hbound
    exact Scan.Fails.refuses (fun ps hps => fails_getVaArg 0 ho hinstalled hcallable hne hindex
      hbound hargument hignores hps) (by decide) (by decide)
  · intro hbound
    have hnone : table[o.name ("GET_VA_ARG_" ++ toString i)]? = none := by
      refine getElem?_numbered ho htable hguard fun hmem => ?_
      rcases numbered_mem_suffixes (by decide) hmem with ⟨heq, -⟩ | ⟨heq, -⟩ | ⟨heq, -⟩ | ⟨-, hlt⟩
      · exact absurd heq (by decide)
      · exact absurd heq (by decide)
      · exact absurd heq (by decide)
      · omega
    have hyields : Scan.Yields table (0 + 1) 3 (([] : List String).map o.name) _ _ _ :=
      .of_rewrites (fun ps hps => exists_rewrites_pastedEntry 0 ho hinstalled hcallable hne
        hargument hignores hps) (.call hnone hignores)
    exact ⟨hnone, hyields.expandsTo (by decide) (by decide)⟩

/-- The last argument, one position past it, and the first position past the bound. -/
theorem expandsTo_selection_two :
    ∃ table, table? { bound := 2 } ⟨2024, 1, 1, 0, 0, 0, 0⟩ = some table ∧
      (∃ e, table.expand {} "ZEN_GET_VA_ARG(1, a, (a, a))" = .ok e ∧ e.tokens.map Token.word =
        [.mark "(", .name "a", .mark ",", .name "a", .mark ")"]) ∧
      table.expand {} "ZEN_GET_VA_ARG(1, a)" =
        .error (.argumentCount "ZEN_GET_VA_ARG_1" (.atLeast 2) 1) ∧
      (∃ e, table.expand {} "ZEN_GET_VA_ARG(2, a, , a)" = .ok e ∧ e.tokens.map Token.word =
        [.name "ZEN_GET_VA_ARG_2", .mark "(", .name "a", .mark ",", .mark ",", .name "a",
          .mark ")"]) := by
  have ho : Options.check { bound := 2 } = .ok () := by decide
  obtain ⟨table, htable, hselection⟩ :=
    expandsTo_selection ho ⟨2024, 1, 1, 0, 0, 0, 0⟩ (by decide)
  have hnone : table["a"]? = none :=
    getElem?_of_foreign ho htable (by decide) (by decide)
  have hignores : ∀ ws : List Word, (∀ w ∈ ws, w.kind = .identifier → w.text = "a") →
      table.Ignores ws :=
    fun ws hws w hw hkind => hws w hw hkind ▸ hnone
  -- Only the name `a` stands in the arguments, and it is not defined.
  have hitems : ∀ items : List (List Word),
      (∀ a ∈ items, Word.IsArgument a ∧ ∀ w ∈ a, w.kind = .identifier → w.text = "a") →
      (∀ a ∈ items, Word.IsArgument a) ∧ ∀ a ∈ items, table.Ignores a :=
    fun items h => ⟨fun a ha => (h a ha).1, fun a ha => hignores a (h a ha).2⟩
  have hlast : Token.lex "ZEN_GET_VA_ARG(1, a, (a, a))" = .ok [name "ZEN_GET_VA_ARG", mark "(",
      number "1", mark ",", (name "a").afterSpace, mark ",", (mark "(").afterSpace, name "a",
      mark ",", (name "a").afterSpace, mark ")", mark ")"] := by cbv
  have hnext : Token.lex "ZEN_GET_VA_ARG(1, a)" = .ok [name "ZEN_GET_VA_ARG", mark "(",
      number "1", mark ",", (name "a").afterSpace, mark ")"] := by cbv
  have hpast : Token.lex "ZEN_GET_VA_ARG(2, a, , a)" = .ok [name "ZEN_GET_VA_ARG", mark "(",
      number "2", mark ",", (name "a").afterSpace, mark ",", (mark ",").afterSpace,
      (name "a").afterSpace, mark ")"] := by cbv
  obtain ⟨hargument, hignored⟩ := hitems [[.name "a"], [.mark "(", .name "a", .mark ",", .name "a",
    .mark ")"]] (by decide)
  obtain ⟨hargument', hignored'⟩ := hitems [[.name "a"]] (by decide)
  obtain ⟨hargument'', hignored''⟩ := hitems [[.name "a"], [], [.name "a"]] (by decide)
  exact ⟨table, htable,
    (hselection 1 _ (by simp) hargument hignored).1 _ rfl (by decide) _ _ hlast rfl,
    (hselection 1 _ (by simp) hargument' hignored').2.1 (by decide) (by decide) _ _ hnext rfl,
    ((hselection 2 _ (by simp) hargument'' hignored'').2.2 (by decide)).2 _ _ hpast rfl⟩

end Header

end VariadicMacros
