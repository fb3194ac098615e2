/-
**The names of the macros of a header.**

Every macro of a header is named by the stem of the options and an ending.  Some endings are fixed
words, and four of them carry a number: the levels of deferral and the entries of the three
tables.  Numbered endings are recognised by their digits, so that no two macros share a name
whatever the bound, and the names that a dispatch can reach beyond its table belong to no macro.

Main definitions:

* `VariadicMacros.Header.macros` — the definitions of all families, in order;
* `VariadicMacros.Header.plainSuffixes`, `VariadicMacros.Header.dispatchStems` — the fixed endings
  and the beginnings of the numbered ones;
* `VariadicMacros.Header.suffixes` — the endings of all macros, in order.

Main results:

* `VariadicMacros.Header.definitions_blocks` — a header defines its guard and then these macros;
* `VariadicMacros.Header.map_name_macros` — their names are the stem with the endings;
* `VariadicMacros.Header.nodup_suffixes` — **no ending occurs twice**.
-/

import VariadicMacros.Header
import VariadicMacros.Proofs.Legible

set_option autoImplicit false

namespace VariadicMacros

/-! ### Identifiers with a number at the end -/

namespace Text

theorem isNameChar_of_isDigit {c : Char} (h : c.isDigit = true) : isNameChar c = true := by
  simp [isNameChar, Char.isAlphanum, h]

theorem all_isDigit_toString (n : Nat) : (toString n).toList.all Char.isDigit = true := by
  obtain ⟨c, cs, hcs, hc, hall⟩ := toList_toString_eq_cons n
  rw [hcs, List.all_cons, hc]
  exact List.all_eq_true.2 hall

/-- Different numbers have different numerals. -/
theorem toString_inj {i j : Nat} (h : toString i = toString j) : i = j := by
  rw [Nat.toString_eq_ofList_toDigits, Nat.toString_eq_ofList_toDigits, String.ofList_inj] at h
  rw [← Nat.ofDigitChars_ten_toDigits (n := i), h, Nat.ofDigitChars_ten_toDigits]

/-- An identifier stays one when characters of identifiers follow. -/
theorem isIdentifier_append {a b : String} (ha : isIdentifier a.toList = true)
    (hb : b.toList.all isNameChar = true) : isIdentifier (a ++ b).toList = true := by
  rw [String.toList_append]
  cases hcs : a.toList with
  | nil => simp [hcs, isIdentifier] at ha
  | cons c cs =>
      rw [hcs] at ha
      simp only [isIdentifier, Bool.and_eq_true] at ha
      simp [isIdentifier, ha.1, ha.2, hb]

theorem isIdentifier_append_toString {a : String} (ha : isIdentifier a.toList = true) (n : Nat) :
    isIdentifier (a ++ toString n).toList = true := by
  refine isIdentifier_append ha (List.all_eq_true.2 fun c hc => ?_)
  exact isNameChar_of_isDigit (List.all_eq_true.1 (all_isDigit_toString n) c hc)

end Text

/-- With accepted options every ending that is an identifier gives one. -/
theorem Options.isIdentifier_name {o : Options} (ho : o.check = .ok ()) (suffix : String)
    (h : Text.isIdentifier suffix.toList = true) :
    Text.isIdentifier (o.name suffix).toList = true := by
  rcases (o.check_eq_ok_iff.1 ho).2.2.1 with hstem | hstem
  · simpa [Options.name, hstem] using h
  · exact Text.isIdentifier_append hstem (Text.all_isNameChar_of_isIdentifier h)

/-- A number at the end of a name is one at the end of its ending. -/
theorem Options.name_append_toString (o : Options) (stem : String) (n : Nat) :
    o.name stem ++ toString n = o.name (stem ++ toString n) := by
  simp [name, String.append_assoc]

/-- Two macro names are equal when their endings are. -/
theorem Options.name_inj (o : Options) {a b : String} : o.name a = o.name b ↔ a = b := by
  simp [Options.name]

/-- A macro name ends like its ending. -/
theorem Options.name_ne_of_not_suffix (o : Options) {suffix p : String}
    (h : ¬ suffix.toList <:+ p.toList) : o.name suffix ≠ p := by
  rintro rfl
  exact h ⟨o.stem.toList, by simp [Options.name]⟩

namespace Header

/-! ### Endings -/

/-- The endings without a number. -/
def plainSuffixes : List String :=
  ["VA_LENGTH", "VA_LENGTH_IMPL", "ARG_N", "RSEQ_N", "EMPTY", "DEFER", "DEFER_N", "EXPAND",
    "EVAL", "CONCAT", "CONCAT_IMPL", "STATIC_ASSERT", "UNUSED", "VA_MAX_LENGTH", "REPEAT_WITH",
    "REPEAT", "ENUM", "GET_VA_ARG", "FOR_EACH_IMPL", "FOR_EACH_IMPL2", "FOR_EACH_WITH",
    "FOR_EACH", "FOR_EACH_ENUM"]

/-- The beginnings of the endings with a number. -/
def dispatchStems : List String := ["DEFER_", "REPEAT_WITH_", "ENUM_IMPL_", "GET_VA_ARG_"]

/-- Numbered endings are equal only when both parts are. -/
theorem numbered_inj {stem stem' : String} (h : stem ∈ dispatchStems)
    (h' : stem' ∈ dispatchStems) {i j : Nat} (heq : stem ++ toString i = stem' ++ toString j) :
    stem = stem' ∧ i = j := by
  -- The four beginnings differ in their first characters already.
  have hfirst : ∀ s ∈ dispatchStems, ∀ s' ∈ dispatchStems,
      s.toList.head? = s'.toList.head? → s = s' := by decide
  have hne : ∀ s ∈ dispatchStems, s.toList ≠ [] := by decide
  have hstem : stem = stem' := by
    refine hfirst stem h stem' h' ?_
    have hlist := congrArg (fun s : String => s.toList.head?) heq
    simpa only [String.toList_append, List.head?_append_of_ne_nil _ (hne stem h),
      List.head?_append_of_ne_nil _ (hne stem' h')] using hlist
  subst hstem
  exact ⟨rfl, Text.toString_inj ((String.append_right_inj _).1 heq)⟩

/-- A text with a number at the end ends with a digit. -/
theorem getLast?_append_toString (stem : String) (n : Nat) :
    (stem ++ toString n).toList.getLast?.any Char.isDigit = true := by
  obtain ⟨c, cs, hcs, hc, hall⟩ := Text.toList_toString_eq_cons n
  have hmem := List.getLast_mem (List.cons_ne_nil c cs)
  have hlast : ((c :: cs).getLast (List.cons_ne_nil c cs)).isDigit = true := by
    rcases List.mem_cons.1 hmem with h | h
    · rw [h]
      exact hc
    · exact hall _ h
  rw [String.toList_append, hcs, List.getLast?_append_of_ne_nil _ (List.cons_ne_nil c cs),
    List.getLast?_eq_some_getLast (List.cons_ne_nil c cs)]
  exact hlast

/-- What does not end with a digit does not end with a number. -/
theorem not_suffix_of_isDigit {p : String} (h : p.toList.getLast?.any Char.isDigit = false)
    (stem : String) (n : Nat) : ¬ (stem ++ toString n).toList <:+ p.toList := by
  rintro ⟨cs, hcs⟩
  have hlast := getLast?_append_toString stem n
  have hne : (stem ++ toString n).toList ≠ [] := by
    intro hnil
    rw [hnil] at hlast
    cases hlast
  rw [← hcs, List.getLast?_append_of_ne_nil _ hne, hlast] at h
  cases h

/-- No ending with a number is one of the fixed endings. -/
theorem numbered_notMem_plainSuffixes {stem : String} (h : stem ∈ dispatchStems) (n : Nat) :
    stem ++ toString n ∉ plainSuffixes := by
  have hall : ∀ s ∈ dispatchStems, ∀ p ∈ plainSuffixes,
      ¬ (s.toList <+: p.toList ∧ p.toList.getLast?.any Char.isDigit = true) := by decide
  intro hmem
  exact hall stem h _ hmem ⟨⟨(toString n).toList, by simp⟩, getLast?_append_toString stem n⟩

/-- A numbered ending is none of the endings that are fixed. -/
theorem numbered_notMem {stem : String} (h : stem ∈ dispatchStems) (n : Nat)
    {endings : List String} (hplain : ∀ s ∈ endings, s ∈ plainSuffixes) :
    stem ++ toString n ∉ endings :=
  fun hmem => numbered_notMem_plainSuffixes h n (hplain _ hmem)

/-- The beginning of a numbered ending is no ending itself. -/
theorem stem_ne_numbered {stem stem' : String} (h : stem ∈ dispatchStems) (n : Nat) :
    stem ≠ stem' ++ toString n := by
  have hall : ∀ s ∈ dispatchStems, s.toList.getLast?.any Char.isDigit = false := by decide
  rintro rfl
  have := hall _ h
  rw [getLast?_append_toString] at this
  cases this

theorem stem_notMem_plainSuffixes {stem : String} (h : stem ∈ dispatchStems) :
    stem ∉ plainSuffixes := by
  revert h
  revert stem
  decide

/-! ### The macros of a header -/

/-- The families in the order of a header. -/
def families : List Family :=
  [.counting, .deferral, .helpers, .repetition, .enumeration, .selection, .composition]

/-- The definitions of all families, in order. -/
def macros (o : Options) : List Definition := definitions (families.flatMap (Family.blocks o))

/-- The endings of the numbered macros that a stem has for a range of numbers. -/
def numberedSuffixes (stem : String) (first count : Nat) : List String :=
  (List.range' first count).map fun n => stem ++ toString n

/-- The endings of all macros, in order. -/
def suffixes (o : Options) : List String :=
  ["VA_LENGTH", "VA_LENGTH_IMPL", "ARG_N", "RSEQ_N", "EMPTY", "DEFER"] ++
    numberedSuffixes "DEFER_" 1 o.deferLevels ++
  ["DEFER_N", "EXPAND", "EVAL", "CONCAT", "CONCAT_IMPL", "STATIC_ASSERT", "UNUSED",
    "VA_MAX_LENGTH"] ++
    numberedSuffixes "REPEAT_WITH_" 0 (o.bound + 1) ++ ["REPEAT_WITH", "REPEAT"] ++
    numberedSuffixes "ENUM_IMPL_" 0 (o.bound + 1) ++ ["ENUM"] ++
    numberedSuffixes "GET_VA_ARG_" 0 o.bound ++
  ["GET_VA_ARG", "FOR_EACH_IMPL", "FOR_EACH_IMPL2", "FOR_EACH_WITH", "FOR_EACH", "FOR_EACH_ENUM"]

/-- The stems of the numbered endings, each with its first number and their count. -/
def numberedRanges (o : Options) : List (String × Nat × Nat) :=
  [("DEFER_", 1, o.deferLevels), ("REPEAT_WITH_", 0, o.bound + 1),
    ("ENUM_IMPL_", 0, o.bound + 1), ("GET_VA_ARG_", 0, o.bound)]

theorem map_fst_numberedRanges (o : Options) :
    (numberedRanges o).map Prod.fst = dispatchStems := rfl

theorem stem_mem_dispatchStems {o : Options} {r : String × Nat × Nat}
    (h : r ∈ numberedRanges o) : r.1 ∈ dispatchStems :=
  map_fst_numberedRanges o ▸ List.mem_map_of_mem h

@[simp] theorem definitions_nil : definitions [] = [] := rfl

@[simp] theorem definitions_append (bs cs : List Block) :
    definitions (bs ++ cs) = definitions bs ++ definitions cs := by
  simp [definitions]

@[simp] theorem definitions_text (content : String) (bs : List Block) :
    definitions (.line (.text content) :: bs) = definitions bs := rfl

@[simp] theorem definitions_define (spacing : Spacing) (d : Definition) (bs : List Block) :
    definitions (.line (.define spacing d) :: bs) = d :: definitions bs := rfl

@[simp] theorem definitions_table (first count : Nat) (entry : Nat → Line) (bs : List Block) :
    definitions (.table first count entry :: bs) =
      (List.range' first count).filterMap (fun n => (entry n).definition?) ++ definitions bs := by
  simp [definitions, Block.lines, List.filterMap_map]

@[simp] theorem definitions_docs (contents : List String) : definitions (docs contents) = [] := by
  induction contents with
  | nil => rfl
  | cons c cs ih =>
      rw [← ih]
      rfl

/-- A header defines its guard and then the macros of its families. -/
theorem definitions_blocks (o : Options) (stamp : String) :
    definitions (blocks o stamp) = guardDefinition o :: macros o := by
  simp [blocks, opening, macros, families, Family.blocks, Line.blank, List.flatMap_cons]

/-- The names of the macros that a table defines, when each entry is named by its number. -/
theorem map_name_table (o : Options) (stem : String) (entry : Nat → Line) (first count : Nat)
    (h : ∀ n, (entry n).definition?.map Definition.name = some (o.name (stem ++ toString n))) :
    ((List.range' first count).filterMap fun n => (entry n).definition?).map Definition.name =
      (numberedSuffixes stem first count).map o.name := by
  rw [List.map_filterMap, numberedSuffixes, List.map_map]
  simp [h]

/-- The names of the macros are the stem with the endings. -/
theorem map_name_macros (o : Options) :
    (macros o).map Definition.name = (suffixes o).map o.name := by
  have hlevels : o.deferLevels = o.deferLevels - 1 + 1 := by
    have : 1 ≤ o.deferLevels := Nat.le_max_right _ _
    omega
  have hfirst : numberedSuffixes "DEFER_" 1 o.deferLevels =
      "DEFER_1" :: numberedSuffixes "DEFER_" 2 (o.deferLevels - 1) := by
    rw [hlevels, numberedSuffixes, List.range'_succ]
    rfl
  have hdefer := map_name_table o "DEFER_" (deferLevel o) 2 (o.deferLevels - 1) fun _ => rfl
  have hrepetition := map_name_table o "REPEAT_WITH_" (repetitionEntry o) 0 (o.bound + 1)
    fun n => congrArg some (o.name_append_toString _ n)
  have henumeration := map_name_table o "ENUM_IMPL_" (enumerationEntry o) 0 (o.bound + 1)
    fun n => congrArg some (o.name_append_toString _ n)
  have hselection := map_name_table o "GET_VA_ARG_" (selectionEntry o) 0 o.bound
    fun n => congrArg some (o.name_append_toString _ n)
  simp [macros, families, Family.blocks, counting, deferral, helpers, repetition, enumeration,
    selection, composition, Line.blank, variadic, fixed, function, suffixes, hfirst, hdefer,
    hrepetition, henumeration, hselection]

/-! ### No name occurs twice -/

/-- A list has no duplicates when its members in a class and its members outside of it have
none. -/
theorem nodup_of_filter {α : Type} {l : List α} (p : α → Bool) (h : (l.filter p).Nodup)
    (h' : (l.filter fun a => !p a).Nodup) : l.Nodup := by
  rw [← (List.filter_append_perm p l).nodup_iff, List.nodup_append]
  refine ⟨h, h', ?_⟩
  rintro a ha b hb rfl
  rw [List.mem_filter] at ha hb
  simp [ha.2] at hb

/-- The numbered endings of a stem are different from one another. -/
theorem nodup_numberedSuffixes {stem : String} (h : stem ∈ dispatchStems) (first count : Nat) :
    (numberedSuffixes stem first count).Nodup := by
  refine List.Nodup.map_on ?_ List.nodup_range'
  intro i _ j _ heq
  exact (numbered_inj h h heq).2

/-- Endings of different stems are different. -/
theorem numberedSuffixes_disjoint {stem stem' : String} (h : stem ∈ dispatchStems)
    (h' : stem' ∈ dispatchStems) (hne : stem ≠ stem') {first count first' count' : Nat} :
    ∀ a ∈ numberedSuffixes stem first count, ∀ b ∈ numberedSuffixes stem' first' count', a ≠ b := by
  intro a ha b hb heq
  obtain ⟨i, -, rfl⟩ := List.mem_map.1 ha
  obtain ⟨j, -, rfl⟩ := List.mem_map.1 hb
  exact hne (numbered_inj h h' heq).1

/-- The numbered endings of a stem are all outside of the fixed ones. -/
theorem filter_numberedSuffixes {stem : String} (h : stem ∈ dispatchStems) (first count : Nat) :
    (numberedSuffixes stem first count).filter (fun s => plainSuffixes.contains s) = [] ∧
      (numberedSuffixes stem first count).filter (fun s => !plainSuffixes.contains s) =
        numberedSuffixes stem first count := by
  have hnone : ∀ s ∈ numberedSuffixes stem first count, plainSuffixes.contains s = false := by
    intro s hs
    obtain ⟨n, -, rfl⟩ := List.mem_map.1 hs
    simpa using numbered_notMem_plainSuffixes h n
  refine ⟨List.filter_eq_nil_iff.2 fun s hs => ?_, List.filter_eq_self.2 fun s hs => ?_⟩
  · simp only [hnone s hs, Bool.false_eq_true, not_false_eq_true]
  · simp only [hnone s hs, Bool.not_false]

theorem filter_of_plain {l : List String} (h : ∀ s ∈ l, s ∈ plainSuffixes) :
    l.filter (fun s => !plainSuffixes.contains s) = [] :=
  List.filter_eq_nil_iff.2 fun s hs => by simpa using h s hs

/-- The numbered endings of all stems are different from one another. -/
theorem nodup_numberedRanges (o : Options) :
    ((numberedRanges o).flatMap fun r => numberedSuffixes r.1 r.2.1 r.2.2).Nodup := by
  have hne : (numberedRanges o).Pairwise fun r r' => r.1 ≠ r'.1 := by
    refine List.pairwise_map.1 ?_
    rw [map_fst_numberedRanges]
    decide
  refine List.nodup_flatMap.2
    ⟨fun r hr => nodup_numberedSuffixes (stem_mem_dispatchStems hr) _ _, hne.imp_of_mem ?_⟩
  intro r r' hr hr' hrr' a ha ha'
  exact numberedSuffixes_disjoint (stem_mem_dispatchStems hr) (stem_mem_dispatchStems hr') hrr' a
    ha a ha' rfl

/-- **No ending occurs twice.** -/
theorem nodup_suffixes (o : Options) : (suffixes o).Nodup := by
  have hdefer : "DEFER_" ∈ dispatchStems := by decide
  have hrepeat : "REPEAT_WITH_" ∈ dispatchStems := by decide
  have henum : "ENUM_IMPL_" ∈ dispatchStems := by decide
  have hget : "GET_VA_ARG_" ∈ dispatchStems := by decide
  -- The fixed endings are compared with one another by evaluation, the numbered ones by number.
  refine nodup_of_filter (fun s => plainSuffixes.contains s) ?_ ?_
  · have hfilter : (suffixes o).filter (fun s => plainSuffixes.contains s) = plainSuffixes := by
      simp only [suffixes, List.filter_append, (filter_numberedSuffixes hdefer _ _).1,
        (filter_numberedSuffixes hrepeat _ _).1, (filter_numberedSuffixes henum _ _).1,
        (filter_numberedSuffixes hget _ _).1, List.append_nil]
      decide
    rw [hfilter]
    decide
  · have hfilter : (suffixes o).filter (fun s => !plainSuffixes.contains s) =
        (numberedRanges o).flatMap fun r => numberedSuffixes r.1 r.2.1 r.2.2 := by
      simp only [suffixes, List.filter_append, (filter_numberedSuffixes hdefer _ _).2,
        (filter_numberedSuffixes hrepeat _ _).2, (filter_numberedSuffixes henum _ _).2,
        (filter_numberedSuffixes hget _ _).2]
      rw [filter_of_plain (by decide), filter_of_plain (by decide), filter_of_plain (by decide),
        filter_of_plain (by decide), filter_of_plain (by decide)]
      simp [numberedRanges]
    rw [hfilter]
    exact nodup_numberedRanges o

/-- **No macro of a header has the name of another one.** -/
theorem nodup_map_name_macros (o : Options) : ((macros o).map Definition.name).Nodup := by
  rw [map_name_macros]
  exact (nodup_suffixes o).map fun _ _ h => (o.name_inj).1 h

/-- The endings are the fixed ones and those of the numbered ranges. -/
theorem mem_suffixes {o : Options} {s : String} (h : s ∈ suffixes o) :
    s ∈ plainSuffixes ∨ ∃ r ∈ numberedRanges o, s ∈ numberedSuffixes r.1 r.2.1 r.2.2 := by
  have hplain : ∀ l : List String, (∀ s ∈ l, s ∈ plainSuffixes) → s ∈ l → s ∈ plainSuffixes :=
    fun l hl hs => hl s hs
  simp only [suffixes, List.mem_append] at h
  rcases h with (((((((h | h) | h) | h) | h) | h) | h) | h) | h
  · exact .inl (hplain _ (by decide) h)
  · exact .inr ⟨("DEFER_", 1, o.deferLevels), by simp [numberedRanges], h⟩
  · exact .inl (hplain _ (by decide) h)
  · exact .inr ⟨("REPEAT_WITH_", 0, o.bound + 1), by simp [numberedRanges], h⟩
  · exact .inl (hplain _ (by decide) h)
  · exact .inr ⟨("ENUM_IMPL_", 0, o.bound + 1), by simp [numberedRanges], h⟩
  · exact .inl (hplain _ (by decide) h)
  · exact .inr ⟨("GET_VA_ARG_", 0, o.bound), by simp [numberedRanges], h⟩
  · exact .inl (hplain _ (by decide) h)

/-- The fixed endings are endings of macros. -/
theorem plain_mem_suffixes {s : String} (h : s ∈ plainSuffixes) (o : Options) : s ∈ suffixes o := by
  have hpieces : s ∈ ["VA_LENGTH", "VA_LENGTH_IMPL", "ARG_N", "RSEQ_N", "EMPTY", "DEFER"] ∨
      s ∈ ["DEFER_N", "EXPAND", "EVAL", "CONCAT", "CONCAT_IMPL", "STATIC_ASSERT", "UNUSED",
        "VA_MAX_LENGTH"] ∨
      s ∈ ["REPEAT_WITH", "REPEAT"] ∨ s ∈ ["ENUM"] ∨
      s ∈ ["GET_VA_ARG", "FOR_EACH_IMPL", "FOR_EACH_IMPL2", "FOR_EACH_WITH", "FOR_EACH",
        "FOR_EACH_ENUM"] := by
    revert h
    revert s
    decide
  simp only [suffixes, List.mem_append]
  rcases hpieces with h | h | h | h | h <;> simp only [h, true_or, or_true]

/-- The ending of a macro. -/
theorem mem_suffixes_of_mem_macros {o : Options} {d : Definition} (hd : d ∈ macros o) {s : String}
    (hname : d.name = o.name s) : s ∈ suffixes o := by
  have hmem : d.name ∈ (suffixes o).map o.name := map_name_macros o ▸ List.mem_map_of_mem hd
  obtain ⟨other, hother, heq⟩ := List.mem_map.1 hmem
  rw [hname] at heq
  exact (o.name_inj).1 heq ▸ hother

/-- The beginning of a numbered ending is the ending of no macro. -/
theorem stem_notMem_suffixes {stem : String} (h : stem ∈ dispatchStems) (o : Options) :
    stem ∉ suffixes o := by
  intro hmem
  rcases mem_suffixes hmem with hmem | ⟨r, -, hmem⟩
  · exact stem_notMem_plainSuffixes h hmem
  · obtain ⟨n, -, heq⟩ := List.mem_map.1 hmem
    exact stem_ne_numbered h n heq.symm

/-- Outside of its range a numbered ending belongs to no macro. -/
theorem numbered_mem_suffixes {o : Options} {stem : String} (h : stem ∈ dispatchStems) {n : Nat}
    (hmem : stem ++ toString n ∈ suffixes o) :
    (stem = "DEFER_" ∧ 1 ≤ n ∧ n ≤ o.deferLevels) ∨ (stem = "REPEAT_WITH_" ∧ n ≤ o.bound) ∨
      (stem = "ENUM_IMPL_" ∧ n ≤ o.bound) ∨ (stem = "GET_VA_ARG_" ∧ n < o.bound) := by
  rcases mem_suffixes hmem with hmem | ⟨r, hr, hmem⟩
  · exact absurd hmem (numbered_notMem_plainSuffixes h n)
  · obtain ⟨m, hm, heq⟩ := List.mem_map.1 hmem
    obtain ⟨hr', rfl⟩ := numbered_inj (stem_mem_dispatchStems hr) h heq
    obtain ⟨hge, hlt⟩ := List.mem_range'_1.1 hm
    rw [← hr']
    simp only [numberedRanges, List.mem_cons, List.not_mem_nil, or_false] at hr
    rcases hr with rfl | rfl | rfl | rfl <;> simp only at hge hlt
    · exact .inl ⟨rfl, hge, by omega⟩
    · exact .inr (.inl ⟨rfl, by omega⟩)
    · exact .inr (.inr (.inl ⟨rfl, by omega⟩))
    · exact .inr (.inr (.inr ⟨rfl, by omega⟩))

end Header

end VariadicMacros
