/-
**The table that a loaded header builds.**

A header consists of comments, of the lines of an include guard and of definitions.  All of them
are read as what they define, so that a header that is loaded into an empty table defines its
guard and then its macros.  Since no two macros share a name, the table looks up every one of
them, even one that the guard is named like; and the names that a dispatch reaches beyond its
table are not looked up at all, unless the guard is such a name.

Main definitions:

* `VariadicMacros.Header.table?` — the table that the header of the options builds;
* `VariadicMacros.Header.Installed` — a table looks up every macro of a header.

Main results:

* `VariadicMacros.Header.table?_eq` — **a header loads as its guard and its macros**;
* `VariadicMacros.Header.installed_table` — the table looks up every macro;
* `VariadicMacros.Header.getElem?_stem`, `VariadicMacros.Header.getElem?_numbered` — which names
  it does not look up.
-/

import VariadicMacros.Directive
import VariadicMacros.Proofs.LoadedLines
import VariadicMacros.Proofs.WritableMacros

set_option autoImplicit false

namespace VariadicMacros

/-! ### Tables that are built one definition after the other -/

namespace MacroTable

theorem getElem?_foldl_define_of_notMem {ds : List Definition} {name : String}
    (h : name ∉ ds.map Definition.name) (table : MacroTable) :
    (ds.foldl define table)[name]? = table[name]? := by
  induction ds generalizing table with
  | nil => rfl
  | cons d ds ih =>
      simp only [List.map_cons, List.mem_cons, not_or] at h
      rw [List.foldl_cons, ih h.2, getElem?_define, if_neg (Ne.symm h.1)]

/-- Definitions with different names are all looked up. -/
theorem getElem?_foldl_define_of_mem {ds : List Definition}
    (hnodup : (ds.map Definition.name).Nodup) {d : Definition} (hd : d ∈ ds) (table : MacroTable) :
    (ds.foldl define table)[d.name]? = some d := by
  induction ds generalizing table with
  | nil => exact absurd hd (by simp)
  | cons e ds ih =>
      rw [List.map_cons, List.nodup_cons] at hnodup
      rw [List.foldl_cons]
      rcases List.mem_cons.1 hd with rfl | hd
      · rw [getElem?_foldl_define_of_notMem hnodup.1, getElem?_define, if_pos rfl]
      · exact ih hnodup.2 hd _

end MacroTable

/-! ### Texts that stay on their line -/

namespace Header

open Source (Leaves staysOnLine)

/-- Whether a text ends no line and joins none. -/
def isInline (text : String) : Bool := text.toList.all staysOnLine

theorem isInline_append (a b : String) : isInline (a ++ b) = (isInline a && isInline b) := by
  simp [isInline]

/-- A literal is unified with its list of characters, so that nothing has to be decoded. -/
theorem isInline_ofList {cs : List Char} (h : cs.all staysOnLine = true) :
    isInline (String.ofList cs) = true := by
  rwa [isInline, String.toList_ofList]

theorem isInline_of_forall {text : String} (h : ∀ c ∈ text.toList, Text.isNameChar c = true) :
    isInline text = true :=
  List.all_eq_true.2 fun c hc => (Source.staysOnLine_of_isNameChar (h c hc)).1

theorem isInline_toString (n : Nat) : isInline (toString n) = true := by
  refine isInline_of_forall fun c hc => Text.isNameChar_of_isDigit ?_
  exact List.all_eq_true.1 (Text.all_isDigit_toString n) c hc

theorem isInline_of_isIdentifier {text : String} (h : Text.isIdentifier text.toList = true) :
    isInline text = true :=
  isInline_of_forall (List.all_eq_true.1 (Text.all_isNameChar_of_isIdentifier h))

theorem isInline_padded (width n : Nat) : isInline (Timestamp.padded width n) = true := by
  rw [Timestamp.padded, isInline_append, isInline_toString, isInline_ofList]
  · rfl
  · rw [List.all_replicate]
    split <;> rfl

/-- A stamp stays on its line. -/
theorem isInline_stamp (time : Timestamp) : isInline time.text = true := by
  have hmonth : isInline (Calendar.monthNames.getD (time.month - 1) "") = true := by
    have hall : ∀ s ∈ "" :: Calendar.monthNames, isInline s = true := by decide
    rw [List.getD_eq_getElem?_getD]
    cases hs : Calendar.monthNames[time.month - 1]? with
    | none => rfl
    | some s => exact hall s (List.mem_cons_of_mem _ (List.mem_of_getElem? hs))
  have hyear : isInline (Timestamp.yearText time.year) = true := by
    unfold Timestamp.yearText
    split
    · exact isInline_padded _ _
    · split <;> rw [isInline_append, isInline_padded] <;> rfl
  simp only [Timestamp.text, Timestamp.timeText, isInline_append, hmonth, hyear, isInline_padded]
  decide

/-! ### Lines that are not definitions -/

namespace Line

theorem reads_blank : Reads blank :=
  ⟨[], [], fun out => by simp [blank, writeOnto], rfl, leaves_newline, rfl, none, rfl, .inl rfl⟩

/-- A text that starts like a comment is read as nothing. -/
theorem reads_commentText {content : String} {cs : List Char}
    (hstart : content.toList = '/' :: '/' :: cs) (h : cs.all staysOnLine = true) :
    Reads (.text content) := by
  refine reads_of_comment cs ?_ h rfl
  intro out
  simp [writeOnto, hstart]

/-- The line that asks whether the guard is missing is passed over. -/
theorem reads_ifndef {guard : String} (h : Text.isIdentifier guard.toList = true) :
    Reads (.text ("#ifndef " ++ guard)) := by
  have hguard : guard.toList.all staysOnLine = true := isInline_of_isIdentifier h
  have hplain : Leaves guard.toList guard.toList := by
    refine Leaves.plain fun c hc => (Source.staysOnLine_of_isNameChar ?_).2
    exact List.all_eq_true.1 (Text.all_isNameChar_of_isIdentifier h) c hc
  have hkeyword : Leaves "#ifndef ".toList "#ifndef ".toList := Leaves.plain (by simp)
  have hall : ("#ifndef ".toList ++ guard.toList).all staysOnLine = true := by
    rw [List.all_append, hguard]
    decide
  refine ⟨"#ifndef ".toList ++ guard.toList, "#ifndef ".toList ++ guard.toList, ?_, hall,
    (hkeyword.append hplain).append leaves_newline, hall, some (.skipped "ifndef"), rfl,
    .inr ⟨_, rfl⟩⟩
  intro out
  simp [writeOnto]

/-- The line that ends the guarded part is passed over, and its comment is not looked at. -/
theorem reads_endif {guard : String} (h : Text.isIdentifier guard.toList = true) :
    Reads (.text ("#endif // #ifndef " ++ guard)) := by
  have hguard : guard.toList.all staysOnLine = true := isInline_of_isIdentifier h
  have hkeyword : Leaves "#endif ".toList "#endif ".toList := Leaves.plain (by simp)
  have hcomment : (" #ifndef ".toList ++ guard.toList).all staysOnLine = true := by
    rw [List.all_append, hguard]
    decide
  have hnewline : '\n' ∉ " #ifndef ".toList ++ guard.toList := fun hmem =>
    absurd (List.all_eq_true.1 hcomment '\n' hmem) (by decide)
  have hleaves := hkeyword.append (Leaves.comment hnewline)
  refine ⟨"#endif //".toList ++ (" #ifndef ".toList ++ guard.toList), "#endif ".toList, ?_, ?_,
    ?_, by decide, some (.skipped "endif"), rfl, .inr ⟨_, rfl⟩⟩
  · intro out
    simp [writeOnto]
  · rw [List.all_append, hcomment]
    decide
  · simpa using hleaves

/-- Whether a line can be read as what it defines once its definition, if it has one, is
writable: a blank line, a line of documentation that stays on its line, or a definition. -/
def isOrdinary : Line → Bool
  | .text content => content == ""
  | .doc content => isInline content
  | .define _ _ => true

theorem reads_of_isOrdinary {l : Line} (h : l.isOrdinary = true)
    (hd : ∀ d, l.definition? = some d → d.Writable) : l.Reads := by
  cases l with
  | text content =>
      have hempty : content = "" := by simpa [isOrdinary] using h
      subst hempty
      exact reads_blank
  | doc content => exact reads_doc h
  | define spacing d => exact reads_define (hd d rfl) spacing

end Line

/-! ### The lines of the families -/

/-- Whether all lines of a block are ordinary. -/
def Block.IsOrdinary (b : Block) : Prop := ∀ l ∈ b.lines, l.isOrdinary = true

theorem forall_isOrdinary_docs (contents : List String) :
    (∀ b ∈ docs contents, b.IsOrdinary) ↔ contents.all isInline = true := by
  simp [docs, Block.IsOrdinary, Block.lines, Line.isOrdinary]

theorem forall_reads_docs {contents : List String} (h : contents.all isInline = true) :
    ∀ b ∈ docs contents, ∀ l ∈ b.lines, l.Reads := by
  intro b hb l hl
  obtain ⟨content, hcontent, rfl⟩ := List.mem_map.1 hb
  rw [List.mem_singleton.1 hl]
  exact Line.reads_doc (List.all_eq_true.1 h content hcontent)

theorem isOrdinary_define (spacing : Spacing) (d : Definition) :
    Block.IsOrdinary (.line (.define spacing d)) := by
  intro l hl
  rw [List.mem_singleton.1 hl]
  rfl

theorem isOrdinary_blank : Block.IsOrdinary (.line .blank) := by
  intro l hl
  rw [List.mem_singleton.1 hl]
  rfl

theorem isOrdinary_table {first count : Nat} {entry : Nat → Line}
    (h : ∀ n, (entry n).isOrdinary = true) : Block.IsOrdinary (.table first count entry) := by
  intro l hl
  obtain ⟨n, -, rfl⟩ := List.mem_map.1 hl
  exact h n

/-- The lines of the families are ordinary. -/
theorem isOrdinary_families {o : Options} (ho : o.check = .ok ()) :
    ∀ b ∈ families.flatMap (Family.blocks o), b.IsOrdinary := by
  have hid : ∀ s : String, Text.isIdentifier s.toList = true → isInline (o.name s) = true :=
    fun s hs => isInline_of_isIdentifier (Options.isIdentifier_name ho _ hs)
  have hdefer := hid "DEFER" (by decide)
  have heval := hid "EVAL" (by decide)
  have hlevels : ∀ first count, Block.IsOrdinary (.table first count (deferLevel o)) :=
    fun _ _ => isOrdinary_table fun _ => rfl
  have hrepetition : ∀ first count, Block.IsOrdinary (.table first count (repetitionEntry o)) :=
    fun _ _ => isOrdinary_table fun _ => rfl
  have henumeration : ∀ first count, Block.IsOrdinary (.table first count (enumerationEntry o)) :=
    fun _ _ => isOrdinary_table fun _ => rfl
  have hselection : ∀ first count, Block.IsOrdinary (.table first count (selectionEntry o)) :=
    fun _ _ => isOrdinary_table fun _ => rfl
  simp only [families, List.flatMap_cons, List.flatMap_nil, Family.blocks, counting, deferral,
    helpers, repetition, enumeration, selection, composition, variadic, fixed,
    List.append_nil, List.forall_mem_append, List.forall_mem_cons, List.not_mem_nil,
    false_imp_iff, implies_true, and_true, isOrdinary_define, isOrdinary_blank, true_and,
    forall_isOrdinary_docs, List.all_cons, List.all_nil, isInline_append, isInline_toString,
    hdefer, heval, hlevels, hrepetition, henumeration, hselection, Bool.and_true, Bool.and_eq_true]
  and_intros
  all_goals exact isInline_ofList (by decide)

/-! ### The whole header -/

section Loaded

variable {o : Options} (ho : o.check = .ok ())

include ho

/-- The lines of the families are read as what they define. -/
theorem reads_families : ∀ b ∈ families.flatMap (Family.blocks o), ∀ l ∈ b.lines, l.Reads := by
  intro b hb l hl
  refine Line.reads_of_isOrdinary (isOrdinary_families ho b hb l hl) fun d hd => ?_
  refine writable_macros ho d (List.mem_filterMap.2 ⟨l, ?_, hd⟩)
  exact List.mem_flatMap.2 ⟨b, hb, hl⟩

/-- The lines before the macros are read as what they define. -/
theorem reads_opening (time : Timestamp) :
    ∀ b ∈ opening o time.text, ∀ l ∈ b.lines, l.Reads := by
  have hguard : Text.isIdentifier o.guard.toList = true := (o.check_eq_ok_iff.1 ho).2.2.2
  have hline : ∀ l : Line, (∀ m ∈ (Block.line l).lines, m.Reads) ↔ l.Reads := by
    simp [Block.lines]
  have hbanner : Line.Reads (.text (bannerStart ++ time.text ++ ".")) := by
    have hstart : bannerStart.toList =
        '/' :: '/' :: " This file was generated by vaforge on ".toList := by
      rw [show " This file was generated by vaforge on ".toList = _ from String.toList_ofList]
      exact String.toList_ofList
    have hinline : isInline (" This file was generated by vaforge on " ++ time.text ++ ".") =
        true := by
      rw [isInline_append, isInline_append, isInline_stamp, isInline_ofList (by decide),
        isInline_ofList (by decide)]
      rfl
    refine Line.reads_commentText ?_ hinline
    simp only [String.toList_append, hstart, List.cons_append]
  have hempty : Line.Reads (.text "//") :=
    Line.reads_commentText String.toList_ofList (by decide)
  have hedit : Line.Reads
      (.text "// Do not edit it by hand; change the generator configuration and") :=
    Line.reads_commentText String.toList_ofList (by decide)
  have hregenerate : Line.Reads (.text "// regenerate it instead.") :=
    Line.reads_commentText String.toList_ofList (by decide)
  have hintroduction : [
      "Variadic macro utilities for up to " ++ toString o.bound ++ " arguments.",
      "",
      "Every table below is unrolled up to that bound, since the",
      "preprocessor cannot recurse."].all isInline = true := by
    simp only [List.all_cons, List.all_nil, isInline_append, isInline_toString, Bool.and_true,
      Bool.and_eq_true]
    and_intros
    all_goals exact isInline_ofList (by decide)
  have hdefine : (guardDefinition o).Writable :=
    ⟨hguard, by simp [guardDefinition], by simp [guardDefinition], by simp [guardDefinition],
      rfl, rfl, rfl⟩
  simp only [opening, List.forall_mem_append, List.forall_mem_cons, List.not_mem_nil,
    false_imp_iff, implies_true, and_true, hline]
  exact ⟨⟨⟨hbanner, hempty, hedit, hregenerate, Line.reads_blank⟩,
    forall_reads_docs hintroduction⟩, Line.reads_blank, Line.reads_ifndef hguard,
    Line.reads_define hdefine _, Line.reads_blank⟩

/-- Every line of a header is read as what it defines. -/
theorem reads_blocks (time : Timestamp) :
    ∀ l ∈ (blocks o time.text).flatMap Block.lines, l.Reads := by
  have hguard : Text.isIdentifier o.guard.toList = true := (o.check_eq_ok_iff.1 ho).2.2.2
  have hline : ∀ l : Line, (∀ m ∈ (Block.line l).lines, m.Reads) ↔ l.Reads := by
    simp [Block.lines]
  have hfamilies := reads_families ho
  simp only [families, List.flatMap_cons, List.flatMap_nil, Family.blocks, List.append_nil,
    List.forall_mem_append] at hfamilies
  obtain ⟨hcounting, hdeferral, hhelpers, hrepetition, henumeration, hselection, hcomposition⟩ :=
    hfamilies
  have hblocks : ∀ b ∈ blocks o time.text, ∀ l ∈ b.lines, l.Reads := by
    simp only [blocks, List.forall_mem_append, List.forall_mem_cons, List.not_mem_nil,
      false_imp_iff, implies_true, and_true, hline]
    exact ⟨⟨⟨⟨⟨⟨⟨⟨⟨⟨⟨reads_opening ho time, hcounting⟩, Line.reads_blank⟩, hdeferral⟩,
      Line.reads_blank⟩, hhelpers⟩, Line.reads_blank⟩, hrepetition⟩, henumeration⟩, hselection⟩,
      hcomposition⟩, Line.reads_blank, Line.reads_endif hguard⟩
  intro l hl
  obtain ⟨b, hb, hl⟩ := List.mem_flatMap.1 hl
  exact hblocks b hb l hl

end Loaded

/-- The table that the header of the options builds when it is loaded into an empty one; there is
none when the header is not generated or not read to its end. -/
def table? (o : Options) (time : Timestamp) : Option MacroTable :=
  match render o time with
  | .error _ => none
  | .ok text =>
    match (MacroTable.empty.load text).result with
    | .error _ => none
    | .ok _ => some (MacroTable.empty.load text).table

/-- **A header loads as its guard and its macros**, one definition after the other. -/
theorem table?_eq {o : Options} (ho : o.check = .ok ()) (time : Timestamp) :
    table? o time = some ((guardDefinition o :: macros o).foldl MacroTable.define .empty) := by
  obtain ⟨htable, hresult⟩ := MacroTable.load_written (reads_blocks ho time) .empty
  have hdefinitions : ((blocks o time.text).flatMap Block.lines).filterMap Line.definition? =
      guardDefinition o :: macros o := definitions_blocks o time.text
  rw [hdefinitions] at htable hresult
  simp only [table?, render, write_eq_ok_of_check ho, hresult, htable]

/-! ### What the table looks up -/

/-- A table looks up every macro of a header. -/
def Installed (o : Options) (table : MacroTable) : Prop :=
  ∀ d ∈ macros o, table[d.name]? = some d

/-- A table in which the macros are installed and a definition with another name is added. -/
theorem Installed.define {o : Options} {table : MacroTable} (h : Installed o table)
    {d : Definition} (hd : d.name ∉ (macros o).map Definition.name) :
    Installed o (table.define d) := by
  intro e he
  have hne : d.name ≠ e.name := fun heq => hd (heq ▸ List.mem_map_of_mem he)
  rw [MacroTable.getElem?_define, if_neg hne]
  exact h e he

/-- A name that does not begin with the stem is not that of a macro. -/
theorem notMem_of_foreign {o : Options} {n : String} (hn : ¬ o.stem.toList <+: n.toList) :
    n ∉ (macros o).map Definition.name := by
  rw [map_name_macros]
  intro hmem
  obtain ⟨suffix, -, rfl⟩ := List.mem_map.1 hmem
  exact hn ⟨suffix.toList, by simp [Options.name]⟩

section Table

variable {o : Options} {time : Timestamp} {table : MacroTable}
  (ho : o.check = .ok ()) (htable : table? o time = some table)

include ho htable

/-- **The table of a header looks up every macro.** -/
theorem installed_table : Installed o table := by
  rw [table?_eq ho, Option.some_inj] at htable
  subst htable
  intro d hd
  rw [List.foldl_cons]
  exact MacroTable.getElem?_foldl_define_of_mem (nodup_map_name_macros o) hd _

/-- A name of no macro is looked up only if it is the guard. -/
theorem getElem?_of_notMem {n : String} (hn : n ∉ (macros o).map Definition.name)
    (hguard : o.guard ≠ n) : table[n]? = none := by
  rw [table?_eq ho, Option.some_inj] at htable
  subst htable
  rw [List.foldl_cons, MacroTable.getElem?_foldl_define_of_notMem hn,
    MacroTable.getElem?_define, MacroTable.getElem?_empty]
  exact if_neg hguard

/-- A name that does not begin with the stem is looked up only if it is the guard. -/
theorem getElem?_of_foreign {n : String} (hn : ¬ o.stem.toList <+: n.toList)
    (hguard : o.guard ≠ n) : table[n]? = none :=
  getElem?_of_notMem ho htable (notMem_of_foreign hn) hguard

theorem getElem?_of_notMem_suffixes {suffix : String} (hsuffix : suffix ∉ suffixes o)
    (hguard : o.guard ≠ o.name suffix) : table[o.name suffix]? = none := by
  refine getElem?_of_notMem ho htable ?_ hguard
  rw [map_name_macros]
  intro hmem
  obtain ⟨other, hother, heq⟩ := List.mem_map.1 hmem
  exact hsuffix ((o.name_inj).1 heq ▸ hother)

/-- The beginning of a numbered name is not looked up. -/
theorem getElem?_stem {stem : String} (hstem : stem ∈ dispatchStems)
    (hguard : ¬ (o.name stem).toList <+: o.guard.toList) : table[o.name stem]? = none := by
  refine getElem?_of_notMem_suffixes ho htable (stem_notMem_suffixes hstem o) ?_
  intro heq
  exact hguard (heq ▸ List.prefix_refl _)

/-- A numbered name of no macro is not looked up. -/
theorem getElem?_numbered {stem : String}
    (hguard : ¬ (o.name stem).toList <+: o.guard.toList) {n : Nat}
    (hn : stem ++ toString n ∉ suffixes o) : table[o.name (stem ++ toString n)]? = none := by
  refine getElem?_of_notMem_suffixes ho htable hn ?_
  intro heq
  refine hguard ⟨(toString n).toList, ?_⟩
  rw [heq]
  simp [Options.name]

end Table

end Header

end VariadicMacros
