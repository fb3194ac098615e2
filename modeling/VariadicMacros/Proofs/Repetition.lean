/-
**Repetition and enumeration.**

A count is dispatched to the entry of a table that lists so many applications, with the caller's
separator or with commas between them.  The count is expanded before it is pasted, so that it may
be computed; a count past the bound is pasted to a name that belongs to no macro, and then nothing
is applied.

Main definitions:

* `VariadicMacros.Header.repeatWith`, `VariadicMacros.Header.repeatPlain`,
  `VariadicMacros.Header.enum` — the macros that repeat, and the entries of their tables;
* `VariadicMacros.Header.applications` — the applications of a macro to the indices below a count;
* `VariadicMacros.Header.CountOf` — words that write a count.

Main results:

* `VariadicMacros.Header.exists_rewrites_repeatWith`, `VariadicMacros.Header.exists_rewrites_enum`
  — a count within the bound is rewritten to that many applications;
* `VariadicMacros.Header.expandsTo_repetition` — **the dispatch is exact for every count**.
-/

import VariadicMacros.Proofs.Counting

set_option autoImplicit false

namespace VariadicMacros

open Painted (Shows)
open Token (name number mark)

namespace Header

/-! ### The macros -/

/-- Applies a macro a number of times, with a separator. -/
def repeatWith (o : Options) : Definition :=
  function (o.name "REPEAT_WITH") ["s", "n", "m"] true
    (looseCall (o.name "CONCAT") [[name (o.name "REPEAT_WITH_")], [name "n"]] ++
      parenthesized (separated false [[name "s"], [name "m"], [ellipsisArguments]]))

/-- Applies a macro a number of times. -/
def repeatPlain (o : Options) : Definition :=
  function (o.name "REPEAT") ["n", "m"] true
    (tightCall (o.name "REPEAT_WITH") [[], [name "n"], [name "m"], [ellipsisArguments]])

/-- Lists applications of a macro with commas between them. -/
def enum (o : Options) : Definition :=
  function (o.name "ENUM") ["n", "m"] true
    (looseCall (o.name "CONCAT") [[name (o.name "ENUM_IMPL_")], [name "n"]] ++
      parenthesized (separated false [[name "m"], [ellipsisArguments]]))

/-- The entry of the repetition table for a count. -/
def repeatEntry (o : Options) (count : Nat) : Definition :=
  function (o.name ("REPEAT_WITH_" ++ toString count)) ["s", "m"] true (unrolled count .separator)

/-- The entry of the enumeration table for a count. -/
def enumEntry (o : Options) (count : Nat) : Definition :=
  function (o.name ("ENUM_IMPL_" ++ toString count)) ["m"] true (unrolled count .comma)

theorem repeatWith_mem (o : Options) : repeatWith o ∈ macros o :=
  mem_macros .repetition
    (by simp [Family.blocks, repetition, variadic, repeatWith, Line.blank])

theorem repeatPlain_mem (o : Options) : repeatPlain o ∈ macros o :=
  mem_macros .repetition
    (by simp [Family.blocks, repetition, variadic, repeatPlain, Line.blank])

theorem enum_mem (o : Options) : enum o ∈ macros o :=
  mem_macros .enumeration (by simp [Family.blocks, enumeration, variadic, enum, Line.blank])

theorem repeatEntry_mem {o : Options} {count : Nat} (h : count ≤ o.bound) :
    repeatEntry o count ∈ macros o := by
  have hentry : (repetitionEntry o count).definition? = some (repeatEntry o count) := by
    rw [repetitionEntry, o.name_append_toString]
    rfl
  exact mem_macros_table .repetition 0 (o.bound + 1) (by simp [Family.blocks, repetition])
    (Nat.zero_le _) (by omega) hentry

theorem enumEntry_mem {o : Options} {count : Nat} (h : count ≤ o.bound) :
    enumEntry o count ∈ macros o := by
  have hentry : (enumerationEntry o count).definition? = some (enumEntry o count) := by
    rw [enumerationEntry, o.name_append_toString]
    rfl
  exact mem_macros_table .enumeration 0 (o.bound + 1) (by simp [Family.blocks, enumeration])
    (Nat.zero_le _) (by omega) hentry

/-! ### Applications -/

/-- The applications of a macro to the indices below a count and to further arguments. -/
def applications (m : String) (v : List Word) (count : Nat) : List (List Word) :=
  (List.range count).map fun index => Word.call m [[.number (toString index)], v]

/-- What the list of applications in an entry is filled in to. -/
theorem flatMap_filling_unrolled {d : Definition} {results : List (List Word)} {m : String}
    {v joined : List Word} (hm : d.filling results (name "m") = [.name m])
    (hv : d.filling results ellipsisArguments = v) (joint : Joint)
    (hjoint : d.filling results joint.token = joined) (count : Nat) :
    (unrolled count joint).flatMap (d.filling results) =
      joined.intercalate (applications m v count) := by
  have happlication : ∀ index, (application index).flatMap (d.filling results) =
      Word.call m [[.number (toString index)], v] := by
    intro index
    rw [application, flatMap_filling_respace, flatMap_filling_tightCall, hm]
    simp [hv, Word.call]
  rw [unrolled, flatMap_filling_respace, List.flatMap_assoc, applications]
  -- The first application has no joint in front of it, so that it is taken off the range.
  cases count with
  | zero => rfl
  | succ count =>
      rw [List.range_succ_eq_map, List.flatMap_cons, List.map_cons, intercalate_cons,
        List.flatMap_map, List.map_map, List.flatMap_map, if_pos rfl, happlication]
      refine congrArg _ (List.flatMap_congr fun index _ => ?_)
      rw [if_neg (Nat.succ_ne_zero index), List.flatMap_cons, hjoint, happlication]
      rfl

section Filled

variable {o : Options}

theorem filled_repeatEntry (count : Nat) (s v : List Word) (m : String) :
    (repeatEntry o count).filled [s, [.name m], v] = s.intercalate (applications m v count) :=
  flatMap_filling_unrolled (filling_function_of_mem (by decide))
    (filling_function_ellipsis (by decide)) .separator (filling_function_of_mem (by decide)) count

theorem filled_enumEntry (count : Nat) (v : List Word) (m : String) :
    (enumEntry o count).filled [[.name m], v] = Word.list (applications m v count) :=
  flatMap_filling_unrolled (filling_function_of_mem (by decide))
    (filling_function_ellipsis (by decide)) .comma (filling_mark ",") count

theorem filled_repeatWith (s n m v : List Word) :
    (repeatWith o).filled [s, n, m, v] =
      Word.call (o.name "CONCAT") [[.name (o.name "REPEAT_WITH_")], n] ++
        Word.parens [s, m, v] := by
  simp (disch := decide) [repeatWith, Word.call, Word.parens]
  rfl

theorem filled_repeatPlain (n m v : List Word) :
    (repeatPlain o).filled [n, m, v] = Word.call (o.name "REPEAT_WITH") [[], n, m, v] := by
  simp (disch := decide) [repeatPlain]
  rfl

theorem filled_enum (n m v : List Word) :
    (enum o).filled [n, m, v] =
      Word.call (o.name "CONCAT") [[.name (o.name "ENUM_IMPL_")], n] ++ Word.parens [m, v] := by
  simp (disch := decide) [enum, Word.call, Word.parens]
  rfl

end Filled

/-! ### Repeating -/

/-- A count, a macro and further arguments that can be repeated: the count is scanned into its
numeral, and a scan leaves the macro and the further arguments as they are. -/
structure Repeatable (o : Options) (table : MacroTable) (endings endings' : List String)
    (depth cost i : Nat) (n : List Word) (m : String) (rest : List (List Word)) : Prop where
  sub : endings ⊆ endings'
  argument : Word.IsArgument n
  count : Scan.Yields table depth cost (endings.map o.name) n (endings'.map o.name)
    [.number (toString i)]
  passes : Scan.Passes table [.name m]
  restArgument : ∀ a ∈ rest, Word.IsArgument a
  restPasses : Scan.Passes table (Word.list rest)
  /-- Scanning the count leaves the macros that paste to be called. -/
  plain : ∀ s ∈ endings', s ∈ plainSuffixes
  concat : "CONCAT" ∉ endings'
  concatImpl : "CONCAT_IMPL" ∉ endings'

section Repeating

variable {o : Options} {table : MacroTable} {endings endings' : List String} {depth cost i : Nat}
  {s n : List Word} {m : String} {rest : List (List Word)} {ps : List Painted}

theorem Repeatable.forall_isArgument
    (h : Repeatable o table endings endings' depth cost i n m rest) :
    ∀ a ∈ n :: [.name m] :: rest, Word.IsArgument a := by
  simp only [List.forall_mem_cons]
  exact ⟨h.argument, Word.isArgument_name m, h.restArgument⟩

/-- The count is expanded and the other arguments stay as they are. -/
theorem Repeatable.prepares (h : Repeatable o table endings endings' depth cost i n m rest) :
    Scan.Prepares table depth (endings.map o.name) (endings'.map o.name) (cost + (0 + (0 + 0)))
      [n, [.name m], Word.list rest] [[.number (toString i)], [.name m], Word.list rest] := by
  have hsub : endings.map o.name ⊆ endings'.map o.name := List.map_subset _ h.sub
  exact .cons h.count (.cons (.of_passes h.passes hsub) (.cons (.of_passes h.restPasses hsub) .nil))

/-- In front of an entry the further arguments are at least one, which may be empty. -/
theorem Repeatable.exists_parens (h : Repeatable o table endings endings' depth cost i n m rest)
    (front : List (List Word)) :
    ∃ rest', Word.list rest' = Word.list rest ∧
      Word.parens (front ++ [[.name m], Word.list rest]) =
        Word.parens (front ++ [.name m] :: rest') ∧
      (∀ a ∈ [.name m] :: rest', Word.IsArgument a) ∧
      ∀ names, Scan.Prepares table depth names names 0 [[.name m], Word.list rest']
        [[.name m], Word.list rest'] := by
  obtain ⟨rest', hne, hlist, hrest'⟩ := Word.exists_ne_nil (P := Word.IsArgument) rfl h.restArgument
  refine ⟨rest', hlist, ?_, List.forall_mem_cons.2 ⟨Word.isArgument_name m, hrest'⟩, ?_⟩
  · have hparens := Word.parens_append_list (front ++ [[.name m]]) hne
    rwa [hlist, List.append_assoc, List.append_assoc] at hparens
  · intro names
    rw [hlist]
    exact .cons (.of_passes h.passes (List.Subset.refl _))
      (.cons (.of_passes h.restPasses (List.Subset.refl _)) .nil)

/-- A call of the repetition with a separator is rewritten to the dispatch of its count. -/
theorem exists_rewrites_repeatCount (htable : Installed o table)
    (h : Repeatable o table endings endings' depth cost i n m rest)
    (hfree : "REPEAT_WITH" ∉ endings) (hs : Word.IsArgument s ∧ table.Ignores s)
    (hps : Shows (endings.map o.name) ps
      (Word.call (o.name "REPEAT_WITH") (s :: n :: [.name m] :: rest))) :
    ∃ qs, Shows (("REPEAT_WITH" :: endings').map o.name) qs
        (Word.call (o.name "CONCAT") [[.name (o.name "REPEAT_WITH_")], [.number (toString i)]] ++
          Word.parens [s, [.name m], Word.list rest]) ∧
      Scan.Rewrites table (depth + 1) (cost + 1) ps [] qs := by
  have hargument : ∀ a ∈ s :: n :: [.name m] :: rest, Word.IsArgument a := by
    rw [List.forall_mem_cons]
    exact ⟨hs.1, h.forall_isArgument⟩
  obtain ⟨qs, hqs, hrewrites⟩ := exists_rewrites_macro depth htable (repeatWith_mem o) rfl rfl rfl
    hfree h.sub (takes_function (by simp) (by simp)) hargument hps
    (.cons (.of_ignores hs.2 (List.map_subset _ h.sub)) h.prepares)
  rw [filled_repeatWith] at hqs
  exact ⟨qs, hqs, hrewrites.mono (Nat.le_refl _) (by omega)⟩

/-- **A count within the bound is rewritten to that many applications.** -/
theorem exists_rewrites_repeatWith (ho : o.check = .ok ()) (htable : Installed o table)
    (hcallable : Scan.IsCallable table (o.name "REPEAT_WITH_"))
    (h : Repeatable o table endings endings' depth cost i n m rest) (hi : i ≤ o.bound)
    (hfree : "REPEAT_WITH" ∉ endings) (hs : Word.IsArgument s ∧ table.Ignores s)
    (hps : Shows (endings.map o.name) ps
      (Word.call (o.name "REPEAT_WITH") (s :: n :: [.name m] :: rest))) :
    ∃ qs, Shows ((("REPEAT_WITH_" ++ toString i) :: "REPEAT_WITH" :: endings').map o.name) qs
        (s.intercalate (applications m (Word.list rest) i)) ∧
      Scan.Rewrites table (depth + 1) (cost + 4) ps [] qs := by
  obtain ⟨qs, hqs, hcall⟩ := exists_rewrites_repeatCount htable h hfree hs hps
  obtain ⟨rest', hlist, hparens, hargument, hprepares⟩ := h.exists_parens [s]
  rw [List.singleton_append] at hparens
  rw [hparens] at hqs
  obtain ⟨rs, hrs, hentry⟩ := exists_rewrites_entry depth ho htable (by decide) hcallable
    (repeatEntry_mem hi) rfl (isPiece_unrolled i .separator).quiet rfl (by simp [h.concat])
    (by simp [h.concatImpl])
    (numbered_notMem (by decide) i (List.forall_mem_cons.2 ⟨by decide, h.plain⟩))
    (takes_function (by simp) (by simp))
    (List.forall_mem_cons.2 ⟨hs.1, hargument⟩) hqs
    (.cons (.of_ignores hs.2 (List.Subset.refl _)) (hprepares _))
  rw [filled_repeatEntry, hlist] at hrs
  exact ⟨rs, hrs, (hcall.trans hentry).mono (Nat.le_refl _) (by omega)⟩

/-- A call of the repetition without a separator is rewritten to one with an empty separator. -/
theorem exists_rewrites_repeatPlain (htable : Installed o table)
    (h : Repeatable o table endings endings' depth cost i n m rest) (hfree : "REPEAT" ∉ endings)
    (hps : Shows (endings.map o.name) ps
      (Word.call (o.name "REPEAT") (n :: [.name m] :: rest))) :
    ∃ qs, Shows (("REPEAT" :: endings').map o.name) qs
        (Word.call (o.name "REPEAT_WITH")
          [[], [.number (toString i)], [.name m], Word.list rest]) ∧
      Scan.Rewrites table (depth + 1) (cost + 1) ps [] qs := by
  obtain ⟨qs, hqs, hrewrites⟩ := exists_rewrites_macro depth htable (repeatPlain_mem o) rfl rfl rfl
    hfree h.sub (takes_function (by simp) (by simp)) h.forall_isArgument hps h.prepares
  rw [filled_repeatPlain] at hqs
  exact ⟨qs, hqs, hrewrites.mono (Nat.le_refl _) (by omega)⟩

/-! ### Enumerating -/

/-- A call of the enumeration is rewritten to the dispatch of its count. -/
theorem exists_rewrites_enumCount (htable : Installed o table)
    (h : Repeatable o table endings endings' depth cost i n m rest) (hfree : "ENUM" ∉ endings)
    (hps : Shows (endings.map o.name) ps (Word.call (o.name "ENUM") (n :: [.name m] :: rest))) :
    ∃ qs, Shows (("ENUM" :: endings').map o.name) qs
        (Word.call (o.name "CONCAT") [[.name (o.name "ENUM_IMPL_")], [.number (toString i)]] ++
          Word.parens [[.name m], Word.list rest]) ∧
      Scan.Rewrites table (depth + 1) (cost + 1) ps [] qs := by
  obtain ⟨qs, hqs, hrewrites⟩ := exists_rewrites_macro depth htable (enum_mem o) rfl rfl rfl hfree
    h.sub (takes_function (by simp) (by simp))
    h.forall_isArgument hps h.prepares
  rw [filled_enum] at hqs
  exact ⟨qs, hqs, hrewrites.mono (Nat.le_refl _) (by omega)⟩

/-- **A count within the bound is rewritten to that many applications with commas between them.** -/
theorem exists_rewrites_enum (ho : o.check = .ok ()) (htable : Installed o table)
    (hcallable : Scan.IsCallable table (o.name "ENUM_IMPL_"))
    (h : Repeatable o table endings endings' depth cost i n m rest) (hi : i ≤ o.bound)
    (hfree : "ENUM" ∉ endings)
    (hps : Shows (endings.map o.name) ps (Word.call (o.name "ENUM") (n :: [.name m] :: rest))) :
    ∃ qs, Shows ((("ENUM_IMPL_" ++ toString i) :: "ENUM" :: endings').map o.name) qs
        (Word.list (applications m (Word.list rest) i)) ∧
      Scan.Rewrites table (depth + 1) (cost + 4) ps [] qs := by
  obtain ⟨qs, hqs, hcall⟩ := exists_rewrites_enumCount htable h hfree hps
  obtain ⟨rest', hlist, hparens, hargument, hprepares⟩ := h.exists_parens []
  rw [List.nil_append] at hparens
  rw [hparens] at hqs
  obtain ⟨rs, hrs, hentry⟩ := exists_rewrites_entry depth ho htable (by decide) hcallable
    (enumEntry_mem hi) rfl (isPiece_unrolled i .comma).quiet rfl (by simp [h.concat])
    (by simp [h.concatImpl])
    (numbered_notMem (by decide) i (List.forall_mem_cons.2 ⟨by decide, h.plain⟩))
    (takes_function (by simp) (by simp))
    hargument hqs (hprepares _)
  rw [filled_enumEntry, hlist] at hrs
  exact ⟨rs, hrs, (hcall.trans hentry).mono (Nat.le_refl _) (by omega)⟩

end Repeating

/-! ### Every count -/

section Counts

variable {o : Options} {table : MacroTable} {endings endings' : List String} {depth cost i : Nat}
  {s n : List Word} {m : String} {rest : List (List Word)}

theorem ignores_applications (hm : table[m]? = none) {v : List Word} (hv : table.Ignores v)
    (count : Nat) : ∀ a ∈ applications m v count, table.Ignores a := by
  intro a ha
  obtain ⟨index, -, rfl⟩ := List.mem_map.1 ha
  exact .call hm (by simpa using ⟨.number _, hv⟩)

/-- A repetition with a separator is scanned into its applications, or past the bound into a call
that nothing comes of. -/
theorem exists_yields_repeatWith (ho : o.check = .ok ()) (htable : Installed o table)
    (hcallable : Scan.IsCallable table (o.name "REPEAT_WITH_"))
    (hpast : o.bound < i → table[o.name ("REPEAT_WITH_" ++ toString i)]? = none)
    (h : Repeatable o table endings endings' depth cost i n m rest)
    (hfree : "REPEAT_WITH" ∉ endings) (hs : Word.IsArgument s ∧ table.Ignores s)
    (hm : table[m]? = none) (hrest : table.Ignores (Word.list rest)) :
    ∃ hidden, Scan.Yields table (depth + 1) (cost + 4) (endings.map o.name)
      (Word.call (o.name "REPEAT_WITH") (s :: n :: [.name m] :: rest)) hidden
      (if i ≤ o.bound then s.intercalate (applications m (Word.list rest) i)
        else Word.call (o.name ("REPEAT_WITH_" ++ toString i)) [s, [.name m], Word.list rest]) := by
  by_cases hi : i ≤ o.bound
  · rw [if_pos hi]
    refine ⟨(("REPEAT_WITH_" ++ toString i) :: "REPEAT_WITH" :: endings').map o.name, ?_⟩
    exact .of_rewrites
      (fun ps hps => exists_rewrites_repeatWith ho htable hcallable h hi hfree hs hps)
      (hs.2.intercalate (ignores_applications hm hrest i))
  · rw [if_neg hi]
    -- The pasted name is that of no macro, so the scan goes on behind it.
    have hdone : table.Ignores (Word.call (o.name ("REPEAT_WITH_" ++ toString i))
        [s, [.name m], Word.list rest]) :=
      .call (hpast (by omega)) (by simpa using ⟨hs.2, .name hm, hrest⟩)
    refine ⟨("CONCAT_IMPL" :: "CONCAT" :: "REPEAT_WITH" :: endings').map o.name,
      .of_rewrites (fun ps hps => ?_) hdone⟩
    obtain ⟨qs, hqs, hcall⟩ := exists_rewrites_repeatCount htable h hfree hs hps
    obtain ⟨rs, hrs, hpasted⟩ := exists_rewrites_pasted depth ho htable (by decide) hcallable
      (by simp [h.concat]) (by simp [h.concatImpl]) hqs
    exact ⟨rs, hrs, (hcall.trans hpasted).mono (Nat.le_refl _) (by omega)⟩

/-- A repetition without a separator is scanned into its applications, or past the bound into a
call that nothing comes of. -/
theorem exists_yields_repeatPlain (ho : o.check = .ok ()) (htable : Installed o table)
    (hcallable : Scan.IsCallable table (o.name "REPEAT_WITH_"))
    (hpast : o.bound < i → table[o.name ("REPEAT_WITH_" ++ toString i)]? = none)
    (h : Repeatable o table endings endings' depth cost i n m rest)
    (hfree : "REPEAT" ∉ endings) (hfree' : "REPEAT_WITH" ∉ endings') (hm : table[m]? = none)
    (hrest : table.Ignores (Word.list rest)) :
    ∃ hidden, Scan.Yields table (depth + 1) (cost + 5) (endings.map o.name)
      (Word.call (o.name "REPEAT") (n :: [.name m] :: rest)) hidden
      (if i ≤ o.bound then (applications m (Word.list rest) i).flatten
        else Word.call (o.name ("REPEAT_WITH_" ++ toString i))
          [[], [.name m], Word.list rest]) := by
  obtain ⟨rest', hne, hlist, hrest'⟩ := Word.exists_ne_nil (P := Word.IsArgument) rfl h.restArgument
  -- The count is expanded on the way, and the inner repetition is given its numeral.
  have hnumeral : Repeatable o table ("REPEAT" :: endings') ("REPEAT" :: endings') depth 0 i
      [.number (toString i)] m rest' :=
    ⟨List.Subset.refl _, Word.isArgument_number _, .of_ignores (.number _) (List.Subset.refl _),
      h.passes, hrest', hlist ▸ h.restPasses, List.forall_mem_cons.2 ⟨by decide, h.plain⟩,
      by simp [h.concat], by simp [h.concatImpl]⟩
  obtain ⟨hidden, hyields⟩ := exists_yields_repeatWith ho htable hcallable hpast hnumeral
    (by simp [hfree']) (s := []) ⟨rfl, .nil⟩ hm (hlist ▸ hrest)
  refine ⟨hidden, fun ps hps => ?_⟩
  obtain ⟨qs, hqs, hcall⟩ := exists_rewrites_repeatPlain htable h hfree hps
  have hparens := Word.parens_append_list [[], [.number (toString i)], [.name m]] hne
  rw [hlist] at hparens
  have hqs' : Shows (("REPEAT" :: endings').map o.name) qs (Word.call (o.name "REPEAT_WITH")
      ([] :: [.number (toString i)] :: [.name m] :: rest')) :=
    (congrArg (Shows _ qs) (congrArg (List.cons _) hparens)).mp hqs
  obtain ⟨rs, hrs, hreaches⟩ := hyields qs hqs'
  rw [hlist, intercalate_nil_eq_flatten] at hrs
  refine ⟨rs, hrs, (hcall.reaches.trans hreaches).mono (Nat.le_refl _) (by omega)⟩

/-- An enumeration is scanned into its applications, or past the bound into a call that nothing
comes of. -/
theorem exists_yields_enum (ho : o.check = .ok ()) (htable : Installed o table)
    (hcallable : Scan.IsCallable table (o.name "ENUM_IMPL_"))
    (hpast : o.bound < i → table[o.name ("ENUM_IMPL_" ++ toString i)]? = none)
    (h : Repeatable o table endings endings' depth cost i n m rest)
    (hfree : "ENUM" ∉ endings) (hm : table[m]? = none) (hrest : table.Ignores (Word.list rest)) :
    ∃ hidden, Scan.Yields table (depth + 1) (cost + 4) (endings.map o.name)
      (Word.call (o.name "ENUM") (n :: [.name m] :: rest)) hidden
      (if i ≤ o.bound then Word.list (applications m (Word.list rest) i)
        else Word.call (o.name ("ENUM_IMPL_" ++ toString i)) [[.name m], Word.list rest]) := by
  by_cases hi : i ≤ o.bound
  · rw [if_pos hi]
    refine ⟨(("ENUM_IMPL_" ++ toString i) :: "ENUM" :: endings').map o.name, ?_⟩
    exact .of_rewrites (fun ps hps => exists_rewrites_enum ho htable hcallable h hi hfree hps)
      (.list (ignores_applications hm hrest i))
  · rw [if_neg hi]
    have hdone : table.Ignores (Word.call (o.name ("ENUM_IMPL_" ++ toString i))
        [[.name m], Word.list rest]) :=
      .call (hpast (by omega)) (by simpa using ⟨.name hm, hrest⟩)
    refine ⟨("CONCAT_IMPL" :: "CONCAT" :: "ENUM" :: endings').map o.name,
      .of_rewrites (fun ps hps => ?_) hdone⟩
    obtain ⟨qs, hqs, hcall⟩ := exists_rewrites_enumCount htable h hfree hps
    obtain ⟨rs, hrs, hpasted⟩ := exists_rewrites_pasted depth ho htable (by decide) hcallable
      (by simp [h.concat]) (by simp [h.concatImpl]) hqs
    exact ⟨rs, hrs, (hcall.trans hpasted).mono (Nat.le_refl _) (by omega)⟩

/-- Words that write a count: its numeral, or a call that counts as many arguments. -/
inductive CountOf (o : Options) (table : MacroTable) : Nat → List Word → Prop
  | numeral (count : Nat) : CountOf o table count [.number (toString count)]
  | length {arguments : List (List Word)} : 1 ≤ arguments.length → arguments.length ≤ o.bound →
    (∀ a ∈ arguments, Word.IsArgument a ∧ table.Ignores a) →
      CountOf o table arguments.length (Word.call (o.name "VA_LENGTH") arguments)

/-- Words that write a count are an argument that is scanned into its numeral. -/
theorem CountOf.yields (h : CountOf o table i n) (ho : o.check = .ok ())
    (htable : Installed o table) (hfree : ∀ s ∈ countingSuffixes, s ∉ endings) :
    Word.IsArgument n ∧ Scan.Yields table 2 4 (endings.map o.name) n
      ((countingSuffixes ++ endings).map o.name) [.number (toString i)] := by
  have hsub : endings.map o.name ⊆ (countingSuffixes ++ endings).map o.name :=
    List.map_subset _ (List.subset_append_right _ _)
  cases h with
  | numeral =>
      have hyields : Scan.Yields table 2 0 _ _ _ _ := .of_ignores (.number (toString i)) hsub
      exact ⟨Word.isArgument_number _, hyields.mono (Nat.le_refl _) (Nat.zero_le _)⟩
  | @length arguments hpos hle harguments =>
      exact ⟨Word.isArgument_call _ fun a ha => (harguments a ha).1,
        yields_vaLength ho htable (List.length_pos_iff.1 hpos) hle
          (fun a ha => (harguments a ha).1) (fun a ha => (harguments a ha).2) hfree⟩

/-- The end of an argument list: further arguments, or nothing at all where they are empty. -/
def IsRest (rest : List (List Word)) (v : List Word) : Prop := rest = [v] ∨ rest = [] ∧ v = []

end Counts

/-- The end of an argument list is a list of further arguments. -/
theorem IsRest.exists_arguments {rest : List (List Word)} {v : List Word}
    (h : IsRest rest v) (hbalanced : Word.IsBalanced v) :
    ∃ rest', Word.list rest' = v ∧ (∀ a ∈ rest', Word.IsArgument a) ∧
      ∀ front, Word.parens (front ++ rest) = Word.parens (front ++ rest') := by
  rcases h with rfl | ⟨rfl, rfl⟩
  · obtain ⟨rest', hne, rfl, hargument⟩ := Word.exists_arguments hbalanced
    exact ⟨rest', rfl, hargument, fun front => Word.parens_append_list front hne⟩
  · exact ⟨[], rfl, by simp, fun front => rfl⟩

/-- **The dispatch is exact for every count**, whether it is written as a numeral or computed: up
to the bound a repetition or an enumeration expands to that many applications in the order of
their indices, and past the bound nothing is applied. -/
theorem expandsTo_repetition {o : Options} (ho : o.check = .ok ()) (time : Timestamp)
    (hguard : ∀ stem ∈ dispatchStems, ¬ (o.name stem).toList <+: o.guard.toList) :
    ∃ table, table? o time = some table ∧
      ∀ (i : Nat) (n : List Word), CountOf o table i n →
      ∀ m : String, table[m]? = none →
      ∀ s : List Word, Word.IsArgument s → table.Ignores s →
      ∀ (rest : List (List Word)) (v : List Word), IsRest rest v →
        Word.IsBalanced v → table.Ignores v →
        table.ExpandsTo {} (Word.call (o.name "REPEAT_WITH") (s :: n :: [.name m] :: rest))
          (if i ≤ o.bound then s.intercalate (applications m v i)
            else Word.call (o.name ("REPEAT_WITH_" ++ toString i)) [s, [.name m], v]) ∧
        table.ExpandsTo {} (Word.call (o.name "REPEAT") (n :: [.name m] :: rest))
          (if i ≤ o.bound then (applications m v i).flatten
            else Word.call (o.name ("REPEAT_WITH_" ++ toString i)) [[], [.name m], v]) ∧
        table.ExpandsTo {} (Word.call (o.name "ENUM") (n :: [.name m] :: rest))
          (if i ≤ o.bound then Word.list (applications m v i)
            else Word.call (o.name ("ENUM_IMPL_" ++ toString i)) [[.name m], v]) := by
  obtain ⟨table, htable⟩ : ∃ table, table? o time = some table := ⟨_, table?_eq ho time⟩
  have hinstalled := installed_table ho htable
  refine ⟨table, htable, ?_⟩
  intro i n hn m hm s hs hs' rest v hrest hbalanced hv
  have hcallable : ∀ stem ∈ dispatchStems, Scan.IsCallable table (o.name stem) :=
    fun stem hstem => isCallable_stem ho htable hstem (hguard stem hstem)
  have hpast : ∀ stem ∈ ["REPEAT_WITH_", "ENUM_IMPL_"], o.bound < i →
      table[o.name (stem ++ toString i)]? = none := by
    intro stem hstem hi
    have hstem' : stem ∈ dispatchStems := by
      revert stem
      decide
    refine getElem?_numbered ho htable (hguard stem hstem') fun hmem => ?_
    rcases numbered_mem_suffixes hstem' hmem with ⟨rfl, -⟩ | ⟨-, hle⟩ | ⟨-, hle⟩ | ⟨rfl, -⟩
    · exact absurd hstem (by decide)
    · omega
    · omega
    · exact absurd hstem (by decide)
  obtain ⟨rest', rfl, hrest', hparens⟩ := hrest.exists_arguments hbalanced
  have hcall : ∀ (f : String) (front : List (List Word)),
      Word.call f (front ++ rest) = Word.call f (front ++ rest') :=
    fun f front => congrArg (List.cons (Word.name f)) (hparens front)
  have hfree : ∀ s ∈ countingSuffixes, s ∉ ([] : List String) := by simp
  obtain ⟨hargument, hcount⟩ := hn.yields ho hinstalled hfree
  have hrepeatable : Repeatable o table [] (countingSuffixes ++ []) 2 4 i n m rest' :=
    ⟨by simp, hargument, hcount, .of_ignores (.name hm), hrest', .of_ignores hv, by decide,
      by decide, by decide⟩
  refine ⟨?_, ?_, ?_⟩
  · obtain ⟨hidden, hyields⟩ := exists_yields_repeatWith ho hinstalled
      (hcallable _ (by decide)) (hpast _ (by decide)) hrepeatable (by simp) ⟨hs, hs'⟩ hm hv
    rw [show Word.call (o.name "REPEAT_WITH") (s :: n :: [.name m] :: rest) = _ from
      hcall _ [s, n, [.name m]]]
    exact hyields.expandsTo (by decide) (by decide)
  · obtain ⟨hidden, hyields⟩ := exists_yields_repeatPlain ho hinstalled
      (hcallable _ (by decide)) (hpast _ (by decide)) hrepeatable (by simp) (by decide) hm hv
    rw [show Word.call (o.name "REPEAT") (n :: [.name m] :: rest) = _ from
      hcall _ [n, [.name m]]]
    exact hyields.expandsTo (by decide) (by decide)
  · obtain ⟨hidden, hyields⟩ := exists_yields_enum ho hinstalled
      (hcallable _ (by decide)) (hpast _ (by decide)) hrepeatable (by simp) hm hv
    rw [show Word.call (o.name "ENUM") (n :: [.name m] :: rest) = _ from
      hcall _ [n, [.name m]]]
    exact hyields.expandsTo (by decide) (by decide)

/-- Two applications with a semicolon between them, and their count computed. -/
theorem expandsTo_repetition_two :
    ∃ table, table? { bound := 2 } ⟨2024, 1, 1, 0, 0, 0, 0⟩ = some table ∧
      ∃ e, table.expand {} "ZEN_REPEAT_WITH(;, ZEN_VA_LENGTH(a, b), m, x)" = .ok e ∧
        e.tokens.map Token.word =
          [.name "m", .mark "(", .number "0", .mark ",", .name "x", .mark ")", .mark ";",
            .name "m", .mark "(", .number "1", .mark ",", .name "x", .mark ")"] := by
  have ho : Options.check { bound := 2 } = .ok () := by decide
  obtain ⟨table, htable, hrepetition⟩ :=
    expandsTo_repetition ho ⟨2024, 1, 1, 0, 0, 0, 0⟩ (by decide)
  have hnone : ∀ n ∈ ["a", "b", "m", "x"], table[n]? = none := by
    intro n hn
    refine getElem?_of_foreign ho htable ?_ ?_
    · revert n
      decide
    · revert n
      decide
  have hignores : ∀ ws : List Word,
      (∀ w ∈ ws, w.kind = .identifier → w.text ∈ ["a", "b", "m", "x"]) → table.Ignores ws :=
    fun ws hws w hw hkind => hnone _ (hws w hw hkind)
  have hcount : CountOf { bound := 2 } table 2
      (Word.call "ZEN_VA_LENGTH" [[.name "a"], [.name "b"]]) := by
    refine @CountOf.length _ _ [[.name "a"], [.name "b"]] (by decide) (by decide) fun a ha => ?_
    have hargument : ∀ a ∈ [[Word.name "a"], [Word.name "b"]], Word.IsArgument a ∧
        ∀ w ∈ a, w.kind = .identifier → w.text ∈ ["a", "b", "m", "x"] := by decide
    exact ⟨(hargument a ha).1, hignores a (hargument a ha).2⟩
  have hlex : Token.lex "ZEN_REPEAT_WITH(;, ZEN_VA_LENGTH(a, b), m, x)" = .ok
      [name "ZEN_REPEAT_WITH", mark "(", mark ";", mark ",", (name "ZEN_VA_LENGTH").afterSpace,
        mark "(", name "a", mark ",", (name "b").afterSpace, mark ")", mark ",",
        (name "m").afterSpace, mark ",", (name "x").afterSpace, mark ")"] := by
    cbv
  have hexpands := (hrepetition 2 _ hcount "m" (hnone "m" (by decide)) [.mark ";"] (by decide)
    (hignores _ (by decide)) [[.name "x"]] [.name "x"] (.inl rfl) (by decide)
    (hignores _ (by decide))).1
  exact ⟨table, htable, hexpands _ _ hlex rfl⟩

end Header

end VariadicMacros
