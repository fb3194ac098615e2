/-
**The for-each macros.**

A for-each macro counts its items and repeats the step macro that many times, which selects the
item at its index and calls the caller's macro with both.  The selection dispatches like the
repetition around it does, and it may: the parentheses that a pasted name is called with were not
produced by the pasting macro.

Main definitions:

* `VariadicMacros.Header.forEach`, `VariadicMacros.Header.forEachWith`,
  `VariadicMacros.Header.forEachEnum` — the for-each macros, and the step macros;
* `VariadicMacros.Header.Applies` — calling a macro with an index and an item puts out words;
* `VariadicMacros.Header.ForEach` — what the for-each macros expand to.

Main results:

* `VariadicMacros.Header.emits_item` — a step puts out what the call with its item puts out;
* `VariadicMacros.Header.expandsTo_forEach` — **the for-each macros visit every item in order**.
-/

import VariadicMacros.Proofs.Repetition
import VariadicMacros.Proofs.Selection

set_option autoImplicit false

namespace VariadicMacros

open Painted (Shows)
open Token (name number mark)

namespace Header

/-! ### The macros -/

/-- Selects the item at an index and calls a macro with both. -/
def forEachImpl (o : Options) : Definition :=
  function (o.name "FOR_EACH_IMPL") ["i", "m"] true
    (looseCall (o.name "FOR_EACH_IMPL2") [[name "i"], [name "m"],
      looseCall (o.name "GET_VA_ARG") [[name "i"], [ellipsisArguments]]])

/-- Calls a macro with an index and an item. -/
def forEachImpl2 (o : Options) : Definition :=
  function (o.name "FOR_EACH_IMPL2") ["i", "m"] true
    (looseCall "m" [[name "i"], [ellipsisArguments]])

/-- Calls a macro with every item, with a separator. -/
def forEachWith (o : Options) : Definition :=
  function (o.name "FOR_EACH_WITH") ["s", "m"] true
    (looseCall (o.name "REPEAT_WITH") [[name "s"],
      tightCall (o.name "VA_LENGTH") [[ellipsisArguments]], [name (o.name "FOR_EACH_IMPL")],
      [name "m"], [ellipsisArguments]])

/-- Calls a macro with every item. -/
def forEach (o : Options) : Definition :=
  function (o.name "FOR_EACH") ["m"] true
    (looseCall (o.name "FOR_EACH_WITH") [[], [name "m"], [ellipsisArguments]])

/-- Calls a macro with every item, with commas in between. -/
def forEachEnum (o : Options) : Definition :=
  function (o.name "FOR_EACH_ENUM") ["m"] true
    (looseCall (o.name "ENUM") [tightCall (o.name "VA_LENGTH") [[ellipsisArguments]],
      [name (o.name "FOR_EACH_IMPL")], [name "m"], [ellipsisArguments]])

theorem forEachImpl_mem (o : Options) : forEachImpl o ∈ macros o :=
  mem_macros .composition (by simp [Family.blocks, composition, variadic, forEachImpl])

theorem forEachImpl2_mem (o : Options) : forEachImpl2 o ∈ macros o :=
  mem_macros .composition (by simp [Family.blocks, composition, variadic, forEachImpl2])

theorem forEachWith_mem (o : Options) : forEachWith o ∈ macros o :=
  mem_macros .composition (by simp [Family.blocks, composition, variadic, forEachWith])

theorem forEach_mem (o : Options) : forEach o ∈ macros o :=
  mem_macros .composition (by simp [Family.blocks, composition, variadic, forEach])

theorem forEachEnum_mem (o : Options) : forEachEnum o ∈ macros o :=
  mem_macros .composition (by simp [Family.blocks, composition, variadic, forEachEnum])

section Filled

variable {o : Options}

theorem filled_forEachImpl (i m v : List Word) :
    (forEachImpl o).filled [i, m, v] =
      Word.call (o.name "FOR_EACH_IMPL2") [i, m, Word.call (o.name "GET_VA_ARG") [i, v]] := by
  simp (disch := decide) [forEachImpl]
  rfl

theorem filled_forEachImpl2 (i v : List Word) (m : String) :
    (forEachImpl2 o).filled [i, [.name m], v] = Word.call m [i, v] := by
  simp (disch := decide) [forEachImpl2]
  rfl

theorem filled_forEachWith (s m v : List Word) :
    (forEachWith o).filled [s, m, v] = Word.call (o.name "REPEAT_WITH")
      [s, Word.call (o.name "VA_LENGTH") [v], [.name (o.name "FOR_EACH_IMPL")], m, v] := by
  simp (disch := decide) [forEachWith]
  rfl

theorem filled_forEach (m v : List Word) :
    (forEach o).filled [m, v] = Word.call (o.name "FOR_EACH_WITH") [[], m, v] := by
  simp (disch := decide) [forEach]
  rfl

theorem filled_forEachEnum (m v : List Word) :
    (forEachEnum o).filled [m, v] = Word.call (o.name "ENUM")
      [Word.call (o.name "VA_LENGTH") [v], [.name (o.name "FOR_EACH_IMPL")], m, v] := by
  simp (disch := decide) [forEachEnum]
  rfl

end Filled

/-! ### One item -/

/-- The endings of the macros that a step calls. -/
def stepSuffixes : List String :=
  ["FOR_EACH_IMPL", "FOR_EACH_IMPL2", "GET_VA_ARG", "CONCAT", "CONCAT_IMPL"]

section Step

variable {o : Options} {table : MacroTable} {m : String} {items : List (List Word)} {index : Nat}
  {endings : List String}

/-- A macro that is not called and items that name no macro stay as they are. -/
theorem prepares_items (depth : Nat) (hidden : List String) (hm : Scan.IsCallable table m)
    (hignores : ∀ a ∈ items, table.Ignores a) :
    Scan.Prepares table depth hidden hidden (0 + (0 + 0)) [[.name m], Word.list items]
      [[.name m], Word.list items] :=
  .cons (.of_passes (.of_isCallable hm) (List.Subset.refl _))
    (.cons (.of_ignores (.list hignores) (List.Subset.refl _)) .nil)

theorem getD_mem_items (hindex : index < items.length) : items.getD index [] ∈ items := by
  rw [List.getD_eq_getElem?_getD, List.getElem?_eq_getElem hindex]
  exact List.getElem_mem hindex

/-- Selecting the item at an index scans into the item. -/
theorem yields_selected (ho : o.check = .ok ()) (htable : Installed o table)
    (hcallable : Scan.IsCallable table (o.name "GET_VA_ARG_")) (hindex : index < items.length)
    (hbound : index < o.bound) (hargument : ∀ a ∈ items, Word.IsArgument a)
    (hignores : ∀ a ∈ items, table.Ignores a) (hfree : ∀ s ∈ stepSuffixes, s ∉ endings)
    (hentry : "GET_VA_ARG_" ++ toString index ∉ endings) (depth : Nat) :
    Scan.Yields table (depth + 1) 4 (("FOR_EACH_IMPL" :: endings).map o.name)
      (Word.call (o.name "GET_VA_ARG") ([.number (toString index)] :: items))
      ((("GET_VA_ARG_" ++ toString index) :: "GET_VA_ARG" :: "FOR_EACH_IMPL" :: endings).map o.name)
      (items.getD index []) := by
  have hplain : "GET_VA_ARG_" ++ toString index ∉ ["FOR_EACH_IMPL"] :=
    numbered_notMem (by decide) index (by decide)
  have hentry' : "GET_VA_ARG_" ++ toString index ∉ "FOR_EACH_IMPL" :: endings := by
    rw [List.mem_cons, not_or]
    exact ⟨fun heq => hplain (List.mem_singleton.2 heq), hentry⟩
  refine .of_rewrites (fun ps hps => ?_) (hignores _ (getD_mem_items hindex))
  exact exists_rewrites_getVaArg depth ho htable hcallable hindex hbound hargument hignores
    (by simp [hfree "GET_VA_ARG" (by decide)]) (by simp [hfree "CONCAT" (by decide)])
    (by simp [hfree "CONCAT_IMPL" (by decide)]) hentry' hps

/-- A step is rewritten to the call of the macro with the index and its item. -/
theorem exists_rewrites_step (ho : o.check = .ok ()) (htable : Installed o table)
    (hcallable : Scan.IsCallable table (o.name "GET_VA_ARG_"))
    (hm : Scan.IsCallable table m) (hindex : index < items.length) (hbound : index < o.bound)
    (hargument : ∀ a ∈ items, Word.IsArgument a) (hignores : ∀ a ∈ items, table.Ignores a)
    (hfree : ∀ s ∈ stepSuffixes, s ∉ endings)
    (hentry : "GET_VA_ARG_" ++ toString index ∉ endings) {ps : List Painted}
    (hps : Shows (endings.map o.name) ps (Word.call (o.name "FOR_EACH_IMPL")
      ([.number (toString index)] :: [.name m] :: items))) :
    ∃ qs, Shows (("FOR_EACH_IMPL2" :: ("GET_VA_ARG_" ++ toString index) :: "GET_VA_ARG" ::
          "FOR_EACH_IMPL" :: endings).map o.name) qs
        (Word.call m [[.number (toString index)], items.getD index []]) ∧
      Scan.Rewrites table 3 6 ps [] qs := by
  have hne : items ≠ [] := by
    rintro rfl
    exact absurd hindex (by simp)
  have hnumeral := Word.isArgument_number (toString index)
  have hname := Word.isArgument_name m
  have hitems : Scan.Prepares table 2 (endings.map o.name) (endings.map o.name) _
      [[.number (toString index)], [.name m], Word.list items]
      [[.number (toString index)], [.name m], Word.list items] :=
    .cons (.of_ignores (.number _) (List.Subset.refl _)) (prepares_items _ _ hm hignores)
  obtain ⟨qs, hqs, hstep⟩ := exists_rewrites_macro 2 htable (forEachImpl_mem o) rfl rfl rfl
    (hfree _ (by decide)) (List.Subset.refl _) (takes_function (by simp) (by simp))
    (List.forall_mem_cons.2 ⟨hnumeral, List.forall_mem_cons.2 ⟨hname, hargument⟩⟩) hps hitems
  have hselect : Word.call (o.name "GET_VA_ARG") [[.number (toString index)], Word.list items] =
      Word.call (o.name "GET_VA_ARG") ([.number (toString index)] :: items) :=
    Word.call_append_list _ [_] hne
  rw [filled_forEachImpl, hselect] at hqs
  -- The selection is one argument, so the ellipsis of the call takes it as it is.
  have hslots : (forEachImpl2 o).slots [[.number (toString index)], [.name m],
      Word.call (o.name "GET_VA_ARG") ([.number (toString index)] :: items)] =
      [[.number (toString index)], [.name m],
        Word.call (o.name "GET_VA_ARG") ([.number (toString index)] :: items)] := by
    simp [Definition.slots, forEachImpl2, function]
  have hgrow : ("FOR_EACH_IMPL" :: endings).map o.name ⊆ (("GET_VA_ARG_" ++ toString index) ::
      "GET_VA_ARG" :: "FOR_EACH_IMPL" :: endings).map o.name :=
    List.map_subset _ (List.subset_append_right [_, _] _)
  have hprepares : Scan.Prepares table 2 _ _ (0 + (0 + (4 + 0))) _
      [[.number (toString index)], [.name m], items.getD index []] :=
    .cons (.of_ignores (.number _) hgrow) (.cons (.of_passes (.of_isCallable hm) hgrow)
      (.cons (yields_selected ho htable hcallable hindex hbound hargument hignores hfree hentry 1)
        .nil))
  rw [← hslots] at hprepares
  have hselection := Word.isArgument_call (o.name "GET_VA_ARG")
    (List.forall_mem_cons.2 ⟨hnumeral, hargument⟩)
  obtain ⟨rs, hrs, hcall⟩ := exists_rewrites_macro 2 htable (forEachImpl2_mem o) rfl rfl rfl
    (by simp [hfree "FOR_EACH_IMPL2" (by decide)]) (List.subset_append_right [_, _] _)
    (takes_function (by simp) (by simp)) (by simpa using ⟨hnumeral, hname, hselection⟩) hqs
    hprepares
  rw [filled_forEachImpl2] at hrs
  exact ⟨rs, hrs, hstep.trans hcall⟩

end Step

/-! ### Every item -/

/-- Wherever only macros of the header are hidden, a call of a macro with an index and an item that
names no macro puts out words. -/
def Applies (o : Options) (table : MacroTable) (m : String) (app : Nat → List Word → List Word) :
    Prop :=
  ∀ (index : Nat) (item : List Word), Word.IsArgument item → table.Ignores item →
    ∀ endings ⊆ suffixes o, Scan.Emits table 3 1 (endings.map o.name)
      (Word.call m [[.number (toString index)], item]) (app index item)

/-- A name of no macro is put out with the index and the item. -/
theorem applies_of_none {o : Options} {table : MacroTable} {m : String} (hm : table[m]? = none) :
    Applies o table m fun index item => Word.call m [[.number (toString index)], item] := by
  intro index item _ hitem endings _
  have hcall : table.Ignores (Word.call m [[.number (toString index)], item]) :=
    .call hm (by simpa using ⟨.number _, hitem⟩)
  exact (Scan.Emits.of_ignores hcall).mono (Nat.le_refl _) (Nat.zero_le _)

/-- An added macro with two parameters gives way to its body with the index and the item. -/
theorem IsAdded.applies {o : Options} {table : MacroTable} {d : Definition}
    (h : IsAdded o table d) {a b : String} (hd : d.parameters = some [a, b]) :
    Applies o (table.define d) d.name
      fun index item => d.filled [[.number (toString index)], item] := by
  intro index item hargument hitem endings hsub
  have htakes : d.takes [[.number (toString index)], item] = true := by
    cases hvariadic : d.variadic <;>
      simp [Definition.takes, Definition.demand, hd, hvariadic, ArgumentDemand.accepts]
  have hslots : d.filled (d.slots [[.number (toString index)], item]) =
      d.filled [[.number (toString index)], item] := by
    cases hvariadic : d.variadic with
    | false => simp [Definition.slots, hd, hvariadic]
    | true =>
        -- The ellipsis of a variadic macro is left empty.
        refine List.flatMap_congr fun t _ => ?_
        simp only [Definition.filling, Definition.slots, hd, hvariadic]
        cases d.parameterIndex? t with
        | none => rfl
        | some i => rcases i with _ | _ | _ | i <;> rfl
  intro ps hps
  obtain ⟨qs, hqs, hcall⟩ := h.exists_rewrites_call 2 hsub htakes
    (by simpa using ⟨Word.isArgument_number _, hargument⟩)
    (by simpa using ⟨.number _, hitem⟩) hps
  exact ⟨qs, hqs.words.trans hslots, hcall⟩

/-- What is hidden leaves every step to be called. -/
structure LeavesSteps (o : Options) (endings : List String) : Prop where
  sub : endings ⊆ suffixes o
  steps : ∀ s ∈ stepSuffixes, s ∉ endings
  entries : ∀ index : Nat, "GET_VA_ARG_" ++ toString index ∉ endings

/-- Entries of the other tables and macros that are not part of a step leave it to be called. -/
theorem LeavesSteps.of_entry {o : Options} {stem : String} (hstem : stem ∈ dispatchStems)
    (hne : stem ≠ "GET_VA_ARG_") {n : Nat} (hmem : stem ++ toString n ∈ suffixes o)
    {endings : List String} (h : ∀ s ∈ endings, s ∈ plainSuffixes ∧ s ∉ stepSuffixes) :
    LeavesSteps o ((stem ++ toString n) :: endings) where
  sub := List.cons_subset.2 ⟨hmem, fun s hs => plain_mem_suffixes (h s hs).1 o⟩
  steps := by
    intro s hs hmem
    rcases List.mem_cons.1 hmem with rfl | hmem
    · have hplain : ∀ s ∈ stepSuffixes, s ∈ plainSuffixes := by decide
      exact numbered_notMem_plainSuffixes hstem n (hplain _ hs)
    · exact (h s hmem).2 hs
  entries := by
    intro index hmem
    rcases List.mem_cons.1 hmem with heq | hmem
    · exact hne (numbered_inj (by decide) hstem heq).1.symm
    · exact numbered_notMem_plainSuffixes (by decide) index (h _ hmem).1

/-- Items that a macro can be called with, one after the other. -/
structure Visits (o : Options) (table : MacroTable) (m : String)
    (app : Nat → List Word → List Word) (items : List (List Word)) : Prop where
  callable : Scan.IsCallable table m
  applies : Applies o table m app
  pos : 1 ≤ items.length
  le_bound : items.length ≤ o.bound
  argument : ∀ x ∈ items, Word.IsArgument x
  ignores : ∀ x ∈ items, table.Ignores x

section Items

variable {o : Options} {table : MacroTable} {m : String} {app : Nat → List Word → List Word}
  {items : List (List Word)} {endings : List String}

theorem map_range_eq_mapIdx (app : Nat → List Word → List Word) (items : List (List Word)) :
    ((List.range items.length).map fun index => app index (items.getD index [])) =
      items.mapIdx app := by
  refine List.ext_getElem (by simp) fun index hindex _ => ?_
  have hindex : index < items.length := by simpa using hindex
  simp [List.getD_eq_getElem?_getD, hindex]

/-- A step puts out what the call with its item puts out. -/
theorem emits_item (ho : o.check = .ok ()) (htable : Installed o table)
    (hcallable : Scan.IsCallable table (o.name "GET_VA_ARG_")) (h : Visits o table m app items)
    (hfree : LeavesSteps o endings) {index : Nat} (hindex : index < items.length) :
    Scan.Emits table 3 7 (endings.map o.name)
      (Word.call (o.name "FOR_EACH_IMPL") ([.number (toString index)] :: [.name m] :: items))
      (app index (items.getD index [])) := by
  have hbound : index < o.bound := Nat.lt_of_lt_of_le hindex h.le_bound
  have hmem := getD_mem_items hindex
  -- A step hides macros of the header only, so that the macro of the caller can be called.
  have hhidden : "FOR_EACH_IMPL2" :: ("GET_VA_ARG_" ++ toString index) :: "GET_VA_ARG" ::
      "FOR_EACH_IMPL" :: endings ⊆ suffixes o := by
    have hentry := mem_suffixes_of_mem_macros (getEntry_mem hbound) rfl
    have hplain : ∀ s ∈ stepSuffixes, s ∈ suffixes o :=
      fun s hs => plain_mem_suffixes ((by decide : ∀ s ∈ stepSuffixes, s ∈ plainSuffixes) s hs) o
    simp only [List.cons_subset]
    exact ⟨hplain _ (by decide), hentry, hplain _ (by decide), hplain _ (by decide), hfree.sub⟩
  exact .of_rewrites (fun ps hps => exists_rewrites_step ho htable hcallable h.callable hindex
      hbound h.argument h.ignores hfree.steps (hfree.entries index) hps)
    (h.applies index _ (h.argument _ hmem) (h.ignores _ hmem) _ hhidden)

/-- **The steps put out what the calls with the items put out**, in their order. -/
theorem emits_items (ho : o.check = .ok ()) (htable : Installed o table)
    (hcallable : Scan.IsCallable table (o.name "GET_VA_ARG_")) (h : Visits o table m app items)
    (hfree : LeavesSteps o endings) {s : List Word} (hs : table.Ignores s) :
    Scan.Emits table 3 (items.length * 7) (endings.map o.name)
      (s.intercalate (applications (o.name "FOR_EACH_IMPL") (Word.list ([.name m] :: items))
        items.length)) (s.intercalate (items.mapIdx app)) := by
  have hitems : ∀ index ∈ List.range items.length, Scan.Emits table 3 7 (endings.map o.name)
      (Word.call (o.name "FOR_EACH_IMPL") ([.number (toString index)] :: [.name m] :: items))
      (app index (items.getD index [])) :=
    fun index hindex => emits_item ho htable hcallable h hfree (List.mem_range.1 hindex)
  have hsteps := Scan.Emits.intercalate hs hitems
  rw [map_range_eq_mapIdx, List.length_range] at hsteps
  -- The repetition writes the macro and the items as one list of further arguments.
  have hcalls : ((List.range items.length).map fun index => Word.call (o.name "FOR_EACH_IMPL")
      ([.number (toString index)] :: [.name m] :: items)) =
      applications (o.name "FOR_EACH_IMPL") (Word.list ([.name m] :: items)) items.length := by
    refine List.map_congr_left fun index _ => ?_
    exact (Word.call_append_list _ [_] (List.cons_ne_nil _ _)).symm
  rwa [hcalls] at hsteps

/-- The endings of the macros that visit items. -/
def visitingSuffixes : List String := ["FOR_EACH_WITH", "FOR_EACH", "FOR_EACH_ENUM"]

theorem counting_append_subset (hsub : endings ⊆ visitingSuffixes) :
    countingSuffixes ++ endings ⊆ countingSuffixes ++ visitingSuffixes :=
  List.append_subset.2 ⟨List.subset_append_left _ _, List.subset_append_of_subset_right _ hsub⟩

/-- The count of the items, the step and its arguments can be repeated. -/
theorem repeatable_items (ho : o.check = .ok ()) (htable : Installed o table)
    (h : Visits o table m app items) (hsub : endings ⊆ visitingSuffixes) :
    Repeatable o table endings (countingSuffixes ++ endings) 2 4 items.length
      (Word.call (o.name "VA_LENGTH") items) (o.name "FOR_EACH_IMPL") ([.name m] :: items) := by
  have hcounted := counting_append_subset hsub
  have hfree : ∀ s ∈ countingSuffixes, s ∉ visitingSuffixes := by decide
  have hplain : ∀ s ∈ countingSuffixes ++ visitingSuffixes, s ∈ plainSuffixes := by decide
  exact {
    sub := List.subset_append_right _ _
    argument := Word.isArgument_call _ h.argument
    count := yields_vaLength ho htable (List.length_pos_iff.1 h.pos) h.le_bound h.argument h.ignores
      fun s hs hmem => hfree s hs (hsub hmem)
    passes := .of_isCallable (htable.isCallable (forEachImpl_mem o) rfl)
    restArgument := List.forall_mem_cons.2 ⟨Word.isArgument_name m, h.argument⟩
    restPasses := .list_cons h.callable (.list h.ignores)
    plain := fun s hs => hplain s (hcounted hs)
    concat := fun hmem => absurd (hcounted hmem) (by decide)
    concatImpl := fun hmem => absurd (hcounted hmem) (by decide) }

/-- What a repetition over the items hides leaves the steps to be called. -/
theorem leavesSteps_entry {stem : String} (hstem : stem ∈ dispatchStems)
    (hne : stem ≠ "GET_VA_ARG_") {n : Nat} (hmem : stem ++ toString n ∈ suffixes o) {f : String}
    (hf : f ∈ ["REPEAT_WITH", "ENUM"]) (hsub : endings ⊆ visitingSuffixes) :
    LeavesSteps o ((stem ++ toString n) :: f :: (countingSuffixes ++ endings)) := by
  refine .of_entry hstem hne hmem fun s hs => ?_
  have hall : ∀ s ∈ ["REPEAT_WITH", "ENUM"] ++ (countingSuffixes ++ visitingSuffixes),
      s ∈ plainSuffixes ∧ s ∉ stepSuffixes := by decide
  refine hall s ?_
  rcases List.mem_cons.1 hs with rfl | hs
  · exact List.mem_append_left _ hf
  · exact List.mem_append_right _ (counting_append_subset hsub hs)

/-! ### The macros that visit items -/

/-- With a separator the results stand one after the other with the separator in between. -/
theorem emits_forEachWith (ho : o.check = .ok ()) (htable : Installed o table)
    (hrepeat : Scan.IsCallable table (o.name "REPEAT_WITH_"))
    (hget : Scan.IsCallable table (o.name "GET_VA_ARG_")) (h : Visits o table m app items)
    (hsub : endings ⊆ ["FOR_EACH"]) {s : List Word} (hs : Word.IsArgument s ∧ table.Ignores s) :
    Scan.Emits table 3 (9 + items.length * 7) (endings.map o.name)
      (Word.call (o.name "FOR_EACH_WITH") (s :: [.name m] :: items))
      (s.intercalate (items.mapIdx app)) := by
  have hne := List.length_pos_iff.1 h.pos
  have hvisiting : "FOR_EACH_WITH" :: endings ⊆ visitingSuffixes :=
    List.cons_subset.2 ⟨by decide, List.Subset.trans hsub (by decide)⟩
  have hfree : "FOR_EACH_WITH" ∉ endings := fun hmem => absurd (hsub hmem) (by decide)
  have hfree' : "REPEAT_WITH" ∉ "FOR_EACH_WITH" :: endings :=
    fun hmem => absurd (hvisiting hmem) (by decide)
  have hentry := mem_suffixes_of_mem_macros (repeatEntry_mem h.le_bound) rfl
  have hleaves := leavesSteps_entry (f := "REPEAT_WITH") (by decide) (by decide) hentry (by decide)
    hvisiting
  have hsteps := emits_items ho htable hget h hleaves hs.2
  have hrepetition := Scan.Emits.of_rewrites (fun ps hps => exists_rewrites_repeatWith ho htable
    hrepeat (repeatable_items ho htable h hvisiting) h.le_bound hfree' hs hps) hsteps
  have hfirst : ∀ ps, Shows (endings.map o.name) ps
      (Word.call (o.name "FOR_EACH_WITH") (s :: [.name m] :: items)) →
      ∃ qs, Shows (("FOR_EACH_WITH" :: endings).map o.name) qs
          (Word.call (o.name "REPEAT_WITH") (s :: Word.call (o.name "VA_LENGTH") items ::
            [.name (o.name "FOR_EACH_IMPL")] :: [.name m] :: items)) ∧
        Scan.Rewrites table 3 1 ps [] qs := by
    intro ps hps
    have hitems : Scan.Prepares table 2 (endings.map o.name) (endings.map o.name) _
        [s, [.name m], Word.list items] [s, [.name m], Word.list items] :=
      .cons (.of_ignores hs.2 (List.Subset.refl _)) (prepares_items _ _ h.callable h.ignores)
    obtain ⟨qs, hqs, hcall⟩ := exists_rewrites_macro 2 htable (forEachWith_mem o) rfl rfl rfl hfree
      (List.Subset.refl _) (takes_function (by simp) (by simp))
      (List.forall_mem_cons.2 ⟨hs.1, List.forall_mem_cons.2 ⟨Word.isArgument_name m, h.argument⟩⟩)
      hps hitems
    have hlength : Word.call (o.name "VA_LENGTH") [Word.list items] =
        Word.call (o.name "VA_LENGTH") items := Word.call_append_list _ [] hne
    rw [filled_forEachWith, hlength] at hqs
    exact ⟨qs, Word.call_append_list _ [s, _, _, _] hne ▸ hqs, hcall⟩
  exact (Scan.Emits.of_rewrites hfirst hrepetition).mono (Nat.le_refl _) (by omega)

/-- Without a separator the results stand one after the other. -/
theorem emits_forEach (ho : o.check = .ok ()) (htable : Installed o table)
    (hrepeat : Scan.IsCallable table (o.name "REPEAT_WITH_"))
    (hget : Scan.IsCallable table (o.name "GET_VA_ARG_")) (h : Visits o table m app items) :
    Scan.Emits table 3 (10 + items.length * 7) ([].map o.name)
      (Word.call (o.name "FOR_EACH") ([.name m] :: items)) (items.mapIdx app).flatten := by
  have hne := List.length_pos_iff.1 h.pos
  have hwith := emits_forEachWith ho htable hrepeat hget h (List.Subset.refl _) (s := [])
    ⟨rfl, .nil⟩
  rw [intercalate_nil_eq_flatten] at hwith
  have hfirst : ∀ ps, Shows ([].map o.name) ps
      (Word.call (o.name "FOR_EACH") ([.name m] :: items)) →
      ∃ qs, Shows (["FOR_EACH"].map o.name) qs
          (Word.call (o.name "FOR_EACH_WITH") ([] :: [.name m] :: items)) ∧
        Scan.Rewrites table 3 1 ps [] qs := by
    intro ps hps
    have hitems := prepares_items 2 ([].map o.name) h.callable h.ignores
    obtain ⟨qs, hqs, hcall⟩ := exists_rewrites_macro 2 htable (forEach_mem o) rfl rfl rfl
      List.not_mem_nil (List.Subset.refl _) (takes_function (by simp) (by simp))
      (List.forall_mem_cons.2 ⟨Word.isArgument_name m, h.argument⟩) hps hitems
    have hrest : Word.call (o.name "FOR_EACH_WITH") [[], [.name m], Word.list items] =
        Word.call (o.name "FOR_EACH_WITH") ([] :: [.name m] :: items) :=
      Word.call_append_list _ [_, _] hne
    rw [filled_forEach, hrest] at hqs
    exact ⟨qs, hqs, hcall⟩
  exact (Scan.Emits.of_rewrites hfirst hwith).mono (Nat.le_refl _) (by omega)

/-- As an enumeration the results stand one after the other with commas in between. -/
theorem emits_forEachEnum (ho : o.check = .ok ()) (htable : Installed o table)
    (henum : Scan.IsCallable table (o.name "ENUM_IMPL_"))
    (hget : Scan.IsCallable table (o.name "GET_VA_ARG_")) (h : Visits o table m app items) :
    Scan.Emits table 3 (9 + items.length * 7) ([].map o.name)
      (Word.call (o.name "FOR_EACH_ENUM") ([.name m] :: items))
      (Word.list (items.mapIdx app)) := by
  have hne := List.length_pos_iff.1 h.pos
  have hvisiting : ["FOR_EACH_ENUM"] ⊆ visitingSuffixes := by decide
  have hentry := mem_suffixes_of_mem_macros (enumEntry_mem h.le_bound) rfl
  have hleaves := leavesSteps_entry (f := "ENUM") (by decide) (by decide) hentry (by decide)
    hvisiting
  have hsteps := emits_items ho htable hget h hleaves (MacroTable.Ignores.mark ",")
  have hrepetition := Scan.Emits.of_rewrites (fun ps hps => exists_rewrites_enum ho htable henum
    (repeatable_items ho htable h hvisiting) h.le_bound (by decide) hps) hsteps
  have hfirst : ∀ ps, Shows ([].map o.name) ps
      (Word.call (o.name "FOR_EACH_ENUM") ([.name m] :: items)) →
      ∃ qs, Shows (["FOR_EACH_ENUM"].map o.name) qs
          (Word.call (o.name "ENUM") (Word.call (o.name "VA_LENGTH") items ::
            [.name (o.name "FOR_EACH_IMPL")] :: [.name m] :: items)) ∧
        Scan.Rewrites table 3 1 ps [] qs := by
    intro ps hps
    have hitems := prepares_items 2 ([].map o.name) h.callable h.ignores
    obtain ⟨qs, hqs, hcall⟩ := exists_rewrites_macro 2 htable (forEachEnum_mem o) rfl rfl rfl
      List.not_mem_nil (List.Subset.refl _) (takes_function (by simp) (by simp))
      (List.forall_mem_cons.2 ⟨Word.isArgument_name m, h.argument⟩) hps hitems
    have hlength : Word.call (o.name "VA_LENGTH") [Word.list items] =
        Word.call (o.name "VA_LENGTH") items := Word.call_append_list _ [] hne
    rw [filled_forEachEnum, hlength] at hqs
    exact ⟨qs, Word.call_append_list _ [_, _, _] hne ▸ hqs, hcall⟩
  exact (Scan.Emits.of_rewrites hfirst hrepetition).mono (Nat.le_refl _) (by omega)

end Items

/-! ### For each item -/

/-- For up to as many items as the bound, the macros that visit items expand to what a macro makes
of the items and their indices: one after the other, with commas, or with a separator. -/
def ForEach (o : Options) (table : MacroTable) (m : String) (app : Nat → List Word → List Word) :
    Prop :=
  ∀ items : List (List Word), 1 ≤ items.length → items.length ≤ o.bound →
    (∀ x ∈ items, Word.IsArgument x ∧ table.Ignores x) →
    ∀ s : List Word, Word.IsArgument s → table.Ignores s →
      table.ExpandsTo {} (Word.call (o.name "FOR_EACH") ([.name m] :: items))
        (items.mapIdx app).flatten ∧
      table.ExpandsTo {} (Word.call (o.name "FOR_EACH_ENUM") ([.name m] :: items))
        (Word.list (items.mapIdx app)) ∧
      table.ExpandsTo {} (Word.call (o.name "FOR_EACH_WITH") (s :: [.name m] :: items))
        (s.intercalate (items.mapIdx app))

/-- What a call makes of an index and an item is what the macros make of all of them. -/
theorem forEach_of_applies {o : Options} (ho : o.check = .ok ()) {table : MacroTable}
    (htable : Installed o table)
    (hstems : ∀ stem ∈ dispatchStems, Scan.IsCallable table (o.name stem)) {m : String}
    {app : Nat → List Word → List Word} (hcallable : Scan.IsCallable table m)
    (happlies : Applies o table m app) : ForEach o table m app := by
  intro items hpos hle hitems s hs hs'
  have hvisits : Visits o table m app items :=
    ⟨hcallable, happlies, hpos, hle, fun x hx => (hitems x hx).1, fun x hx => (hitems x hx).2⟩
  have hbound : o.bound ≤ 1024 := (o.check_eq_ok_iff.1 ho).2.1
  -- At seven invocations an item even the largest bound leaves room.
  have hsteps : 10 + items.length * 7 ≤ 200000 := by omega
  refine ⟨?_, ?_, ?_⟩
  · exact (emits_forEach ho htable (hstems _ (by decide)) (hstems _ (by decide))
      hvisits).expandsTo (by decide) hsteps
  · exact (emits_forEachEnum ho htable (hstems _ (by decide)) (hstems _ (by decide))
      hvisits).expandsTo (by decide) (Nat.le_trans (by omega) hsteps)
  · have hwith := emits_forEachWith ho htable (hstems _ (by decide)) (hstems _ (by decide)) hvisits
      (List.nil_subset _) ⟨hs, hs'⟩
    exact hwith.expandsTo (by decide) (Nat.le_trans (by omega) hsteps)

/-- **The for-each macros visit every item in order**: a name of no macro is called with every
index and its item, and a macro that is added to the header gives way to its body with the index
and the item in place of its two parameters. -/
theorem expandsTo_forEach {o : Options} (ho : o.check = .ok ()) (time : Timestamp)
    (hguard : ∀ stem ∈ dispatchStems, ¬ (o.name stem).toList <+: o.guard.toList) :
    ∃ table, table? o time = some table ∧
      (∀ m : String, table[m]? = none →
        ForEach o table m fun index item => Word.call m [[.number (toString index)], item]) ∧
      (∀ (d : Definition) (a b : String), IsAdded o table d → d.parameters = some [a, b] →
        ForEach o (table.define d) d.name
          fun index item => d.filled [[.number (toString index)], item]) := by
  obtain ⟨table, htable⟩ : ∃ table, table? o time = some table := ⟨_, table?_eq ho time⟩
  have hinstalled := installed_table ho htable
  have hstems : ∀ stem ∈ dispatchStems, Scan.IsCallable table (o.name stem) :=
    fun stem hstem => isCallable_stem ho htable hstem (hguard stem hstem)
  refine ⟨table, htable, ?_, ?_⟩
  · intro m hm
    exact forEach_of_applies ho hinstalled hstems (.of_none hm) (applies_of_none hm)
  · intro d a b hadded hparameters
    exact forEach_of_applies ho (hinstalled.define hadded.fresh)
      (fun stem hstem => hadded.isCallable_define (hstems stem hstem)) hadded.isCallable
      (hadded.applies hparameters)

/-- Two items with a semicolon between the calls, and an added macro that indexes two items. -/
theorem expandsTo_forEach_two :
    ∃ table, table? { bound := 2 } ⟨2024, 1, 1, 0, 0, 0, 0⟩ = some table ∧
      (∃ e, table.expand {} "ZEN_FOR_EACH_WITH(;, m, x, (x, y))" = .ok e ∧
        e.tokens.map Token.word =
          [.name "m", .mark "(", .number "0", .mark ",", .name "x", .mark ")", .mark ";",
            .name "m", .mark "(", .number "1", .mark ",", .mark "(", .name "x", .mark ",",
            .name "y", .mark ")", .mark ")"]) ∧
      ∃ e, (table.define (function "P" ["i", "x"] false
          [name "x", mark "[", name "i", mark "]"])).expand {}
          "ZEN_FOR_EACH_ENUM(P, x, y)" = .ok e ∧
        e.tokens.map Token.word =
          [.name "x", .mark "[", .number "0", .mark "]", .mark ",",
            .name "y", .mark "[", .number "1", .mark "]"] := by
  have ho : Options.check { bound := 2 } = .ok () := by decide
  obtain ⟨table, htable, hnames, hadded⟩ :=
    expandsTo_forEach ho ⟨2024, 1, 1, 0, 0, 0, 0⟩ (by decide)
  have hnone : ∀ n ∈ ["m", "x", "y"], table[n]? = none := by
    intro n hn
    refine getElem?_of_foreign ho htable ?_ ?_
    · revert n
      decide
    · revert n
      decide
  refine ⟨table, htable, ?_, ?_⟩
  · have hlex : Token.lex "ZEN_FOR_EACH_WITH(;, m, x, (x, y))" = .ok
        [name "ZEN_FOR_EACH_WITH", mark "(", mark ";", mark ",", (name "m").afterSpace, mark ",",
          (name "x").afterSpace, mark ",", (mark "(").afterSpace, name "x", mark ",",
          (name "y").afterSpace, mark ")", mark ")"] := by
      cbv
    have hwords : ∀ a ∈ [[Word.name "x"], [Word.mark "(", .name "x", .mark ",", .name "y",
        .mark ")"]], Word.IsArgument a ∧
          ∀ w ∈ a, w.kind = .identifier → w.text ∈ ["m", "x", "y"] := by decide
    have hexpands := (hnames "m" (hnone "m" (by decide)) _ (by decide) (by decide)
      (fun a ha => ⟨(hwords a ha).1, fun w hw hkind => hnone _ ((hwords a ha).2 w hw hkind)⟩)
      [.mark ";"] (by decide) (.mark ";")).2.2
    exact hexpands _ _ hlex rfl
  · have hmacro : IsAdded { bound := 2 } table
        (function "P" ["i", "x"] false [name "x", mark "[", name "i", mark "]"]) := by
      refine ⟨rfl, rfl, notMem_of_foreign (by decide), fun t ht hkind hindex => ?_⟩
      have hparameters : ∀ t ∈ [name "x", mark "[", name "i", mark "]"], t.kind = .identifier →
          (function "P" ["i", "x"] false
            [name "x", mark "[", name "i", mark "]"]).parameterIndex? t ≠ none := by decide
      exact absurd hindex (hparameters t ht hkind)
    have hlex : Token.lex "ZEN_FOR_EACH_ENUM(P, x, y)" = .ok
        [name "ZEN_FOR_EACH_ENUM", mark "(", name "P", mark ",", (name "x").afterSpace, mark ",",
          (name "y").afterSpace, mark ")"] := by
      cbv
    have hwords : ∀ a ∈ [[Word.name "x"], [Word.name "y"]], Word.IsArgument a ∧
        ∀ w ∈ a, w.kind = .identifier → w.text ∈ ["m", "x", "y"] ∧ "P" ≠ w.text := by decide
    have hitems : ∀ a ∈ [[Word.name "x"], [Word.name "y"]], Word.IsArgument a ∧
        (table.define (function "P" ["i", "x"] false
          [name "x", mark "[", name "i", mark "]"])).Ignores a := by
      refine fun a ha => ⟨(hwords a ha).1, fun w hw hkind => ?_⟩
      obtain ⟨hmem, hne⟩ := (hwords a ha).2 w hw hkind
      rw [MacroTable.getElem?_define]
      exact (if_neg hne).trans (hnone _ hmem)
    have hexpands := (hadded _ "i" "x" hmacro rfl _ (by decide) (by decide) hitems [] rfl .nil).2.1
    exact hexpands _ _ hlex rfl

end Header

end VariadicMacros
