/-
**What a header defines.**

The `#define` lines of a header define the guard and, for every ending, one macro.  The endings
are all different, so a header defines as many names as it has such lines, except when the guard is
named like one of its macros: the definition of the macro then replaces that of the guard.  The
catalog of a header lists its macros as they are defined, with their parameters and in their order.

Main definitions:

* `VariadicMacros.Source.definedNames` — the names that the `#define` lines of a source give;
* `VariadicMacros.Definition.heading`, `VariadicMacros.Signature.heading` — names with parameters.

Main results:

* `VariadicMacros.MacroTable.size_foldl_define` — how many names a list of definitions defines;
* `VariadicMacros.Header.catalog_sublist` — the catalog lists macros of the header;
* `VariadicMacros.Header.exists_load_catalog` — **a header defines what its catalog lists**;
* `VariadicMacros.Header.nodup_definedNames_iff` — **a header defines no name twice, unless the
  guard is named like a macro**.
-/

import VariadicMacros.Header.Catalog
import VariadicMacros.Proofs.LoadedHeader

set_option autoImplicit false

namespace VariadicMacros

/-! ### The names of a table -/

namespace MacroTable

/-- A table that definitions are added to looks up their names besides its own. -/
theorem isSome_getElem?_foldl_define (ds : List Definition) (table : MacroTable) (n : String) :
    ((ds.foldl define table)[n]?).isSome = true ↔
      n ∈ ds.map Definition.name ∨ (table[n]?).isSome = true := by
  induction ds generalizing table with
  | nil => simp
  | cons d ds ih =>
      rw [List.foldl_cons, ih, getElem?_define, List.map_cons, List.mem_cons]
      by_cases hn : d.name = n
      · simp [hn]
      · simp [hn, Ne.symm hn]

/-- **Definitions define as many names as they have different ones.** -/
theorem size_foldl_define (ds : List Definition) :
    (ds.foldl define empty).size = (ds.map Definition.name).dedup.length := by
  rw [← Std.ExtTreeMap.length_keys]
  refine List.Perm.length_eq ((List.perm_ext_iff_of_nodup Std.ExtTreeMap.nodup_keys
    (List.nodup_dedup _)).2 fun n => ?_)
  rw [Std.ExtTreeMap.mem_keys, Std.ExtTreeMap.mem_iff_isSome_getElem?, List.mem_dedup,
    isSome_getElem?_foldl_define, getElem?_empty]
  simp

end MacroTable

/-! ### The names that a source defines -/

/-- The name that a line defines. -/
def Directive.definedName? (line : List Char) : Option String :=
  match Directive.ofLine line with
  | .ok (some (.define d)) => some d.name
  | _ => none

theorem Directive.definedName?_of_agrees {line : List Char} {directive? : Option Directive}
    {d? : Option Definition} (hline : Directive.ofLine line = .ok directive?)
    (h : Directive.Agrees directive? d?) :
    Directive.definedName? line = d?.map Definition.name := by
  rw [definedName?, hline]
  cases d? with
  | some d =>
      obtain rfl : directive? = some (.define d) := h
      rfl
  | none => rcases h with rfl | ⟨keyword, rfl⟩ <;> rfl

/-- The names that the `#define` lines of a source give, in order. -/
def Source.definedNames (source : String) : List String :=
  match stripComments (splice source.toList) with
  | .error _ => []
  | .ok cs => (lines cs).filterMap Directive.definedName?

/-- A text of lines that are read defines the names of their definitions. -/
theorem Source.definedNames_written {ls : List Header.Line} (h : ∀ l ∈ ls, l.Reads) :
    Source.definedNames (ls.foldl Header.Line.writeOnto "") =
      (ls.filterMap Header.Line.definition?).map Definition.name := by
  obtain ⟨cs, kept, hwritten, hbackslash, hleaves, hstays, hall⟩ := Header.Line.exists_kept h
  have htext : (ls.foldl Header.Line.writeOnto "").toList = cs := by simpa using hwritten ""
  rw [definedNames, htext, splice_of_notMem hbackslash, stripComments_of_leaves hleaves]
  simp only
  rw [lines_flatMap hstays]
  clear hwritten hleaves hbackslash hstays htext h
  induction hall with
  | nil => rfl
  | @cons line l kept ls hline _ ih =>
      obtain ⟨directive?, hline, hagrees⟩ := hline
      rw [List.filterMap_cons, List.filterMap_cons, Directive.definedName?_of_agrees hline hagrees]
      cases l.definition? with
      | none => exact ih
      | some d => simp [ih]

/-! ### Headings -/

/-- A name and the parameters that are written after it, an ellipsis among them; there are none
after the name of an object-like macro. -/
abbrev Heading := String × Option (List String)

/-- The heading of a macro. -/
def Definition.heading (d : Definition) : Heading :=
  (d.name, d.parameters.map fun names => names ++ if d.variadic then ["..."] else [])

/-- The heading of an entry of a catalog. -/
def Signature.heading (s : Signature) : Heading := (s.name, s.parameters)

namespace Header

/-- The headings of the macros of a family that its users call. -/
def Family.listed (o : Options) : Family → List Heading
  | .counting => [(o.name "VA_LENGTH", some ["..."])]
  | .deferral =>
    [(o.name "EMPTY", some []), (o.name "DEFER", some ["..."])] ++
      (List.range' 1 o.deferLevels).map (fun level =>
        (o.name ("DEFER_" ++ toString level), some ["..."])) ++
      [(o.name "DEFER_N", some ["n", "..."]), (o.name "EXPAND", some ["x"]),
        (o.name "EVAL", some ["..."])]
  | .helpers =>
    [(o.name "CONCAT", some ["a", "b"]), (o.name "STATIC_ASSERT", some ["stmt"]),
      (o.name "UNUSED", some ["x"]), (o.name "VA_MAX_LENGTH", none)]
  | .repetition =>
    [(o.name "REPEAT_WITH", some ["s", "n", "m", "..."]), (o.name "REPEAT", some ["n", "m", "..."])]
  | .enumeration => [(o.name "ENUM", some ["n", "m", "..."])]
  | .selection => [(o.name "GET_VA_ARG", some ["n", "..."])]
  | .composition =>
    [(o.name "FOR_EACH_WITH", some ["s", "m", "..."]), (o.name "FOR_EACH", some ["m", "..."]),
      (o.name "FOR_EACH_ENUM", some ["m", "..."])]

theorem headings_catalog (o : Options) :
    o.catalog.map Signature.heading = families.flatMap (Family.listed o) := by
  simp [Options.catalog, families, Family.listed, Options.listed, Signature.heading,
    Options.listedLevel, Function.comp_def]

/-- The levels of deferral are the first one and those of the table. -/
theorem range'_deferLevels (o : Options) :
    List.range' 1 o.deferLevels = 1 :: List.range' 2 (o.deferLevels - 1) := by
  have hlevels : o.deferLevels = o.deferLevels - 1 + 1 := by
    have : 1 ≤ o.deferLevels := Nat.le_max_right _ _
    omega
  rw [hlevels, List.range'_succ]
  rfl

/-- The macros of a table stand before those of the blocks after it. -/
theorem sublist_definitions_table (first count : Nat) (entry : Nat → Line) {bs : List Block}
    {hs : List Heading} (h : hs.Sublist ((definitions bs).map Definition.heading)) :
    hs.Sublist ((definitions (.table first count entry :: bs)).map Definition.heading) := by
  rw [definitions_table, List.map_append]
  exact h.trans (List.sublist_append_right _ _)

/-- The macros that users call are among the macros of their family, in the same order. -/
theorem listed_sublist (o : Options) (f : Family) :
    (f.listed o).Sublist ((definitions (f.blocks o)).map Definition.heading) := by
  cases f with
  | counting => exact .cons_cons _ (List.nil_sublist _)
  | deferral =>
      have heq : (definitions (deferral o)).map Definition.heading = Family.listed o .deferral := by
        simp [deferral, Family.listed, range'_deferLevels, Line.blank, fixed, variadic, function,
          Definition.heading, deferLevel, Function.comp_def, Line.definition?]
        rfl
      exact heq ▸ List.Sublist.refl _
  | helpers => exact .cons_cons _ (.cons _ (List.Sublist.refl _))
  | repetition => exact sublist_definitions_table _ _ _ (List.Sublist.refl _)
  | enumeration => exact sublist_definitions_table _ _ _ (List.Sublist.refl _)
  | selection => exact sublist_definitions_table _ _ _ (List.Sublist.refl _)
  | composition => exact .cons _ (.cons _ (List.Sublist.refl _))

theorem catalog_sublist (o : Options) :
    (o.catalog.map Signature.heading).Sublist ((macros o).map Definition.heading) := by
  rw [headings_catalog, macros]
  induction families with
  | nil => exact List.Sublist.refl _
  | cons f fs ih =>
      rw [List.flatMap_cons, List.flatMap_cons, definitions_append, List.map_append]
      exact (listed_sublist o f).append ih

/-- A header has three macros for every number up to its bound, one for every level of deferral,
and twenty-five more. -/
theorem length_macros (o : Options) : (macros o).length = 3 * o.bound + o.deferLevels + 25 := by
  have hlength := congrArg List.length (map_name_macros o)
  rw [List.length_map, List.length_map] at hlength
  rw [hlength]
  simp [suffixes, numberedSuffixes]
  omega

section Loaded

variable {o : Options} (ho : o.check = .ok ()) (time : Timestamp)

include ho

/-- A header is rendered, and what its `#define` lines define is the guard and the macros. -/
theorem exists_render :
    ∃ text, render o time = .ok text ∧
      Source.definedNames text = o.guard :: (macros o).map Definition.name ∧
      (MacroTable.empty.load text).table =
        (guardDefinition o :: macros o).foldl MacroTable.define .empty ∧
      (MacroTable.empty.load text).result = .ok ((macros o).length + 1) := by
  have hreads := reads_blocks ho time
  obtain ⟨htable, hresult⟩ := MacroTable.load_written hreads .empty
  have hnames := Source.definedNames_written hreads
  have hdefinitions : ((blocks o time.text).flatMap Block.lines).filterMap Line.definition? =
      guardDefinition o :: macros o := definitions_blocks o time.text
  rw [hdefinitions] at htable hresult hnames
  exact ⟨_, write_eq_ok_of_check ho _, hnames, htable, hresult⟩

/-- **A header defines what its catalog lists**, and besides that its guard and the macros that its
own macros need. -/
theorem exists_load_catalog :
    ∃ text, render o time = .ok text ∧
      (MacroTable.empty.load text).result = .ok (3 * o.bound + o.deferLevels + 26) ∧
      (∀ n, ((MacroTable.empty.load text).table[n]?).isSome = true ↔
        n = o.guard ∨ ∃ s ∈ suffixes o, n = o.name s) ∧
      (∀ s ∈ o.catalog, ∃ d, (MacroTable.empty.load text).table[s.name]? = some d ∧
        d.heading = s.heading) ∧
      (o.catalog.map Signature.name).Nodup := by
  obtain ⟨text, htext, -, htable, hresult⟩ := exists_render ho time
  refine ⟨text, htext, ?_, fun n => ?_, fun s hs => ?_, ?_⟩
  · rw [hresult, length_macros]
  · rw [htable, MacroTable.isSome_getElem?_foldl_define, MacroTable.getElem?_empty, List.map_cons,
      map_name_macros]
    simp [guardDefinition, eq_comm]
  · have hmem : s.heading ∈ o.catalog.map Signature.heading := List.mem_map_of_mem hs
    obtain ⟨d, hd, hheading⟩ := List.mem_map.1 ((catalog_sublist o).subset hmem)
    have hname : d.name = s.name := congrArg Prod.fst hheading
    refine ⟨d, ?_, hheading⟩
    rw [htable, ← hname, List.foldl_cons]
    exact MacroTable.getElem?_foldl_define_of_mem (nodup_map_name_macros o) hd _
  · have hnames := (catalog_sublist o).map Prod.fst
    rw [List.map_map, List.map_map] at hnames
    exact hnames.nodup (nodup_map_name_macros o)

omit ho time in
/-- A header defines its macros and its guard, if that has a name of its own. -/
theorem size_foldl_define_macros (o : Options) :
    ((guardDefinition o :: macros o).foldl MacroTable.define .empty).size =
      (macros o).length + if o.guard ∈ (macros o).map Definition.name then 0 else 1 := by
  have hdedup := List.dedup_eq_self.2 (nodup_map_name_macros o)
  have hnames : (guardDefinition o :: macros o).map Definition.name =
      o.guard :: (macros o).map Definition.name := rfl
  rw [MacroTable.size_foldl_define, hnames]
  split
  · next hmem => rw [List.dedup_cons_of_mem hmem, hdedup, List.length_map, Nat.add_zero]
  · next hmem => rw [List.dedup_cons_of_notMem hmem, hdedup, List.length_cons, List.length_map]

/-- **A header defines no name twice, unless the guard is named like a macro.** -/
theorem nodup_definedNames_iff :
    ∃ text count, render o time = .ok text ∧ (MacroTable.empty.load text).result = .ok count ∧
      ((Source.definedNames text).Nodup ↔ ∀ s ∈ suffixes o, o.guard ≠ o.name s) ∧
      ((MacroTable.empty.load text).table.size = count ↔
        ∀ s ∈ suffixes o, o.guard ≠ o.name s) := by
  obtain ⟨text, htext, hnames, htable, hresult⟩ := exists_render ho time
  have hguard : (∀ s ∈ suffixes o, o.guard ≠ o.name s) ↔
      o.guard ∉ (macros o).map Definition.name := by
    simp [map_name_macros, eq_comm]
  refine ⟨text, _, htext, hresult, ?_, ?_⟩
  · rw [hnames, List.nodup_cons, hguard]
    exact and_iff_left (nodup_map_name_macros o)
  · rw [htable, size_foldl_define_macros, hguard]
    split
    · next hmem => simp [hmem]
    · next hmem => simp [hmem]

end Loaded

/-- A header for two arguments. -/
theorem exists_load_catalog_two :
    ∃ text, render { bound := 2 } ⟨2024, 1, 1, 0, 0, 0, 0⟩ = .ok text ∧
      (MacroTable.empty.load text).result = .ok 33 ∧
      ((MacroTable.empty.load text).table["ZEN_REPEAT_WITH_2"]?).isSome = true ∧
      ((MacroTable.empty.load text).table["ZEN_REPEAT_WITH_3"]?).isSome = false ∧
      ∃ d, (MacroTable.empty.load text).table["ZEN_FOR_EACH"]? = some d ∧
        d.heading = ("ZEN_FOR_EACH", some ["m", "..."]) := by
  obtain ⟨text, htext, hresult, hnames, hcatalog, -⟩ :=
    exists_load_catalog (o := { bound := 2 }) (by decide) ⟨2024, 1, 1, 0, 0, 0, 0⟩
  refine ⟨text, htext, hresult, (hnames _).2 (.inr ⟨"REPEAT_WITH_2", by decide, rfl⟩), ?_, ?_⟩
  · let o : Options := { bound := 2 }
    have hnone : ¬ ("ZEN_REPEAT_WITH_3" = o.guard ∨
        ∃ s ∈ suffixes o, "ZEN_REPEAT_WITH_3" = o.name s) := by decide
    exact Bool.eq_false_iff.2 (mt (hnames _).1 hnone)
  · exact hcatalog ⟨"ZEN_FOR_EACH", some ["m", "..."], "m(index, item) per item"⟩ (by decide)

/-- The default guard. -/
theorem nodup_definedNames_two :
    ∃ text, render { bound := 2 } ⟨2024, 1, 1, 0, 0, 0, 0⟩ = .ok text ∧
      (Source.definedNames text).Nodup ∧
      (MacroTable.empty.load text).result = .ok (MacroTable.empty.load text).table.size := by
  obtain ⟨text, count, htext, hresult, hnodup, hsize⟩ :=
    nodup_definedNames_iff (o := { bound := 2 }) (by decide) ⟨2024, 1, 1, 0, 0, 0, 0⟩
  have hguard : ∀ s ∈ suffixes { bound := 2 },
      ({ bound := 2 } : Options).guard ≠ ({ bound := 2 } : Options).name s := by decide
  exact ⟨text, htext, hnodup.2 hguard, by rw [hsize.2 hguard, hresult]⟩

/-- A guard that is named like a macro. -/
theorem not_nodup_definedNames :
    ∃ text, render { bound := 1, guard := "ZEN_EMPTY" } ⟨2024, 1, 1, 0, 0, 0, 0⟩ = .ok text ∧
      ¬ (Source.definedNames text).Nodup ∧ (MacroTable.empty.load text).result = .ok 30 ∧
      (MacroTable.empty.load text).table.size = 29 := by
  have ho : Options.check { bound := 1, guard := "ZEN_EMPTY" } = .ok () := by decide
  obtain ⟨text, htext, hnames, htable, hresult⟩ := exists_render ho ⟨2024, 1, 1, 0, 0, 0, 0⟩
  have hmem : "ZEN_EMPTY" ∈ (macros { bound := 1, guard := "ZEN_EMPTY" }).map Definition.name := by
    rw [map_name_macros]
    exact List.mem_map_of_mem (plain_mem_suffixes (s := "EMPTY") (by decide) _)
  refine ⟨text, htext, ?_, ?_, ?_⟩
  · rw [hnames, List.nodup_cons]
    exact fun h => h.1 hmem
  · rw [hresult, length_macros]
    rfl
  · rw [htable, size_foldl_define_macros, if_pos hmem, length_macros]
    rfl

end Header

end VariadicMacros
