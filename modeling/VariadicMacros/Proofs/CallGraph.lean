/-
**No macro of a header leads back to itself.**

A preprocessor does not invoke a macro inside of what came of it, so that a header must do without
recursion: where a loop is called for there is a table with an entry for every number of rounds.
Here it is shown for every header that the entries of the three tables stand for themselves, their
replacement lists being made of their own parameters, and that no chain of macros, each one
mentioned by the one before or reached by pasting a number to a name that is mentioned, comes back
to where it began.

Main definitions:

* `VariadicMacros.Definition.identifiers`, `VariadicMacros.Definition.Mentions` — the names in a
  replacement list;
* `VariadicMacros.Definition.IsSelfContained` — they are all parameters;
* `VariadicMacros.Header.LeadsTo` — one macro mentions another one or dispatches to it;
* `VariadicMacros.Header.mentioned` — what the macros without a number mention, from the bottom up.

Main results:

* `VariadicMacros.Header.identifiers_subset_mentioned` — they mention nothing else;
* `VariadicMacros.Header.cases_of_mem_identifiers` — every name in a header is a parameter, a word
  of the language, or the stem with an ending;
* `VariadicMacros.Header.ends_level` — the levels of deferral end at the first one;
* `VariadicMacros.Header.not_transGen_leadsTo` — **no macro of a header leads back to itself**.
-/

import VariadicMacros.Proofs.AcceptedOptions
import VariadicMacros.Proofs.Deferral
import VariadicMacros.Proofs.ForEach

set_option autoImplicit false

namespace VariadicMacros

open Token (name number mark)

/-! ### The names in a replacement list -/

namespace Token

/-- The identifiers of a token list. -/
def identifiers (ts : List Token) : List String :=
  (ts.filter fun t => t.kind = .identifier).map Token.text

variable {ts us : List Token}

theorem mem_identifiers {n : String} :
    n ∈ identifiers ts ↔ ∃ t ∈ ts, t.kind = .identifier ∧ t.text = n := by
  simp [identifiers, and_assoc]

@[simp] theorem identifiers_nil : identifiers [] = [] := rfl

@[simp] theorem identifiers_append : identifiers (ts ++ us) = identifiers ts ++ identifiers us := by
  simp [identifiers]

@[simp] theorem identifiers_name_cons (n : String) :
    identifiers (name n :: ts) = n :: identifiers ts := rfl

@[simp] theorem identifiers_mark_cons (text : String) :
    identifiers (mark text :: ts) = identifiers ts := rfl

@[simp] theorem identifiers_number_cons (text : String) :
    identifiers (number text :: ts) = identifiers ts := rfl

@[simp] theorem identifiers_literal_cons (text : String) (spaced : Bool) :
    identifiers (⟨.literal, text, spaced⟩ :: ts) = identifiers ts := rfl

@[simp] theorem identifiers_afterSpace_cons (t : Token) :
    identifiers (t.afterSpace :: ts) = identifiers (t :: ts) := by
  cases hkind : t.kind <;> simp [identifiers, afterSpace, hkind]

@[simp] theorem identifiers_respace (b : Bool) :
    identifiers (respace b ts) = identifiers ts := by
  cases ts with
  | nil => rfl
  | cons t ts => cases hkind : t.kind <;> simp [identifiers, hkind]

theorem identifiers_flatMap {α : Type} (l : List α) (f : α → List Token) :
    identifiers (l.flatMap f) = l.flatMap fun a => identifiers (f a) := by
  induction l with
  | nil => rfl
  | cons a l ih => rw [List.flatMap_cons, List.flatMap_cons, identifiers_append, ih]

@[simp] theorem identifiers_ellipsisArguments_cons :
    identifiers (Header.ellipsisArguments :: ts) = variadicName :: identifiers ts := rfl

@[simp] theorem identifiers_separated (b : Bool) (parts : List (List Token)) :
    identifiers (Header.separated b parts) = parts.flatMap identifiers := by
  cases parts with
  | nil => rfl
  | cons ts parts => simp [Header.separated, identifiers_flatMap]

@[simp] theorem identifiers_parenthesized :
    identifiers (Header.parenthesized ts) = identifiers ts := by
  simp [Header.parenthesized]

@[simp] theorem identifiers_tightCall (f : String) (parts : List (List Token)) :
    identifiers (Header.tightCall f parts) = f :: parts.flatMap identifiers := by
  simp [Header.tightCall]

@[simp] theorem identifiers_looseCall (f : String) (parts : List (List Token)) :
    identifiers (Header.looseCall f parts) = f :: parts.flatMap identifiers := by
  simp [Header.looseCall]

end Token

namespace Definition

/-- A replacement list has a name that is not one of a parameter. -/
def Mentions (d : Definition) (n : String) : Prop :=
  ∃ t ∈ d.body, t.kind = .identifier ∧ d.parameterIndex? t = none ∧ t.text = n

/-- All identifiers of a replacement list are parameters. -/
def IsSelfContained (d : Definition) : Prop :=
  ∀ n ∈ Token.identifiers d.body,
    n ∈ d.parameters.getD [] ∨ d.variadic = true ∧ n = variadicName

theorem Mentions.mem_identifiers {d : Definition} {n : String} (h : d.Mentions n) :
    n ∈ Token.identifiers d.body := by
  obtain ⟨t, ht, hkind, -, htext⟩ := h
  exact Token.mem_identifiers.2 ⟨t, ht, hkind, htext⟩

/-- A replacement list of parameters alone mentions nothing. -/
theorem IsSelfContained.not_mentions {d : Definition} (h : d.IsSelfContained)
    (hfunction : d.isFunctionLike = true) (n : String) : ¬ d.Mentions n := by
  rintro ⟨t, ht, hkind, hindex, rfl⟩
  obtain ⟨names, hnames⟩ := Option.isSome_iff_exists.1 hfunction
  rw [parameterIndex?, if_pos hkind, hnames] at hindex
  cases hi : names.idxOf? t.text with
  | some i => simp [hi] at hindex
  | none =>
      rcases h t.text (Token.mem_identifiers.2 ⟨t, ht, hkind, rfl⟩) with hmem | ⟨hvariadic, htext⟩
      · rw [hnames] at hmem
        exact List.idxOf?_eq_none_iff.1 hi hmem
      · rw [htext] at hi
        simp [hi, hvariadic, htext] at hindex

end Definition

namespace Header

/-! ### Chains of macros -/

/-- One macro of a table leads to another one: its replacement list mentions the other, or it has
the beginning of numbered names of which the other is one. -/
def LeadsTo (o : Options) (table : MacroTable) (a b : String) : Prop :=
  ∃ d, table[a]? = some d ∧ (table[b]?).isSome = true ∧
    (d.Mentions b ∨ ∃ stem ∈ dispatchStems, o.name stem ∈ Token.identifiers d.body ∧
      ∃ i : Nat, b = o.name (stem ++ toString i))

/-- All chains of macros that begin with a name end. -/
def Ends (o : Options) (table : MacroTable) : String → Prop := Acc fun b a => LeadsTo o table a b

/-- Chains end from a name on, and from all names that come of pasting a number to it. -/
def Settled (o : Options) (table : MacroTable) (n : String) : Prop :=
  Ends o table n ∧ ∀ stem ∈ dispatchStems, n = o.name stem →
    ∀ i : Nat, Ends o table (o.name (stem ++ toString i))

/-- The identifiers of replacement lists that are no names of macros: parameters and words of the
language. -/
def commonWords : List String :=
  [variadicName, "s", "n", "m", "i", "a", "b", "x", "N", "stmt", "static_assert", "void"]

/-- The endings without a number, each with those that its replacement list mentions, which stand
further up. -/
def mentioned : List (String × List String) :=
  [("EMPTY", []), ("EXPAND", []), ("EVAL", []), ("CONCAT_IMPL", []), ("STATIC_ASSERT", []),
    ("UNUSED", []), ("VA_MAX_LENGTH", []), ("ARG_N", []), ("RSEQ_N", []), ("FOR_EACH_IMPL2", []),
    ("DEFER", ["EMPTY"]),
    ("CONCAT", ["CONCAT_IMPL"]),
    ("VA_LENGTH_IMPL", ["ARG_N"]),
    ("VA_LENGTH", ["VA_LENGTH_IMPL", "RSEQ_N"]),
    ("DEFER_N", ["CONCAT", "DEFER_"]),
    ("REPEAT_WITH", ["CONCAT", "REPEAT_WITH_"]),
    ("REPEAT", ["REPEAT_WITH"]),
    ("ENUM", ["CONCAT", "ENUM_IMPL_"]),
    ("GET_VA_ARG", ["CONCAT", "GET_VA_ARG_"]),
    ("FOR_EACH_IMPL", ["FOR_EACH_IMPL2", "GET_VA_ARG"]),
    ("FOR_EACH_WITH", ["REPEAT_WITH", "VA_LENGTH", "FOR_EACH_IMPL"]),
    ("FOR_EACH", ["FOR_EACH_WITH"]),
    ("FOR_EACH_ENUM", ["ENUM", "VA_LENGTH", "FOR_EACH_IMPL"])]

/-- No ending gives a common word. -/
theorem name_ne_of_mem_commonWords {o : Options} {s w : String} (hs : s ∈ endings o)
    (hw : w ∈ commonWords) : o.name s ≠ w := by
  refine o.name_ne_of_not_suffix ?_
  have hplain : ∀ s ∈ plainSuffixes ++ dispatchStems, ∀ w ∈ commonWords,
      ¬ s.toList <:+ w.toList := by decide
  have hdigit : ∀ w ∈ commonWords, w.toList.getLast?.any Char.isDigit = false := by decide
  rcases List.mem_append.1 hs with hs | hs
  · rcases mem_suffixes hs with hs | ⟨r, -, hs⟩
    · exact hplain s (List.mem_append_left _ hs) w hw
    · obtain ⟨n, -, rfl⟩ := List.mem_map.1 hs
      exact not_suffix_of_isDigit (hdigit w hw) r.1 n
  · exact hplain s (List.mem_append_right _ hs) w hw

/-- The beginning of a numbered ending does not end with a digit. -/
theorem stem_not_suffix_numbered {stem : String} (h : stem ∈ dispatchStems) (a : String)
    (n : Nat) : ¬ stem.toList <:+ (a ++ toString n).toList := by
  have hall : ∀ s ∈ dispatchStems, s.toList ≠ [] ∧
      s.toList.getLast?.any Char.isDigit = false := by decide
  rintro ⟨cs, hcs⟩
  have hlast := getLast?_append_toString a n
  rw [← hcs, List.getLast?_append_of_ne_nil _ (hall stem h).1, (hall stem h).2] at hlast
  cases hlast

theorem numbered_notMem_dispatchStems {stem : String} (n : Nat) :
    stem ++ toString n ∉ dispatchStems :=
  fun hmem => stem_ne_numbered hmem n rfl

/-! ### What the macros mention -/

/-- Gives its argument back. -/
def expandOnce (o : Options) : Definition := function (o.name "EXPAND") ["x"] false [name "x"]

/-- Asserts a condition when a program is compiled. -/
def staticAssert (o : Options) : Definition :=
  function (o.name "STATIC_ASSERT") ["stmt"] false
    (looseCall "static_assert" [[name "stmt"],
      [⟨.literal, "\"Compile-time assertion failed: \"", false⟩, (mark "#").afterSpace,
        name "stmt"]])

/-- Silences warnings on a variable. -/
def unused (o : Options) : Definition :=
  function (o.name "UNUSED") ["x"] false
    (parenthesized [name "void"] ++ parenthesized [name "x"] ++ [mark ";"])

/-- The bound itself. -/
def maxLength (o : Options) : Definition :=
  ⟨o.name "VA_MAX_LENGTH", none, false, [number (toString o.bound)]⟩

theorem expandOnce_mem (o : Options) : expandOnce o ∈ macros o :=
  mem_macros .deferral (by simp [Family.blocks, deferral, variadic, fixed, expandOnce, Line.blank])

theorem staticAssert_mem (o : Options) : staticAssert o ∈ macros o :=
  mem_macros .helpers (by simp [Family.blocks, helpers, fixed, staticAssert, Line.blank])

theorem unused_mem (o : Options) : unused o ∈ macros o :=
  mem_macros .helpers (by simp [Family.blocks, helpers, fixed, unused, Line.blank])

theorem maxLength_mem (o : Options) : maxLength o ∈ macros o :=
  mem_macros .helpers (by simp [Family.blocks, helpers, fixed, maxLength, Line.blank])

/-- There is an entry for every ending without a number. -/
theorem exists_mentioned :
    ∀ s ∈ plainSuffixes, ∃ k : Fin mentioned.length, (mentioned.get k).1 = s := by decide

theorem mentioned_notMem : ∀ k : Fin mentioned.length, (mentioned.get k).1 ∉ dispatchStems := by
  decide

/-- What an entry mentions stands further up, numbered names aside. -/
theorem mentioned_below : ∀ k : Fin mentioned.length, ∀ c ∈ (mentioned.get k).2,
    c ∈ dispatchStems ∨ ∃ j : Fin mentioned.length, j < k ∧ (mentioned.get j).1 = c := by decide

theorem mentioned_subset_endings (k : Fin mentioned.length) (o : Options) :
    ∀ c ∈ (mentioned.get k).2, c ∈ endings o := by
  have hall : ∀ k : Fin mentioned.length, ∀ c ∈ (mentioned.get k).2,
      c ∈ plainSuffixes ∨ c ∈ dispatchStems := by decide
  exact fun c hc => List.mem_append.2 ((hall k c hc).imp_left fun h => plain_mem_suffixes h o)

/-- A macro without a number mentions nothing but the endings of its entry. -/
theorem identifiers_subset_mentioned {o : Options} (ho : o.check = .ok ()) :
    ∀ p ∈ mentioned, ∃ d ∈ macros o, d.name = o.name p.1 ∧
      ∀ n ∈ Token.identifiers d.body, n ∈ commonWords ∨ n ∈ p.2.map o.name := by
  simp only [mentioned, List.forall_mem_cons, List.not_mem_nil, false_imp_iff, implies_true,
    and_true]
  refine ⟨⟨_, empty_mem o, rfl, ?_⟩, ⟨_, expandOnce_mem o, rfl, ?_⟩, ⟨_, eval_mem o, rfl, ?_⟩,
    ⟨_, concatImpl_mem o, rfl, ?_⟩, ⟨_, staticAssert_mem o, rfl, ?_⟩, ⟨_, unused_mem o, rfl, ?_⟩,
    ⟨_, maxLength_mem o, rfl, ?_⟩, ⟨_, argN_mem ho, rfl, ?_⟩, ⟨_, rseqN_mem ho, rfl, ?_⟩,
    ⟨_, forEachImpl2_mem o, rfl, ?_⟩, ⟨_, deferFirst_mem o, rfl, ?_⟩, ⟨_, concat_mem o, rfl, ?_⟩,
    ⟨_, vaLengthImpl_mem o, rfl, ?_⟩, ⟨_, vaLength_mem o, rfl, ?_⟩, ⟨_, deferNumber_mem o, rfl, ?_⟩,
    ⟨_, repeatWith_mem o, rfl, ?_⟩, ⟨_, repeatPlain_mem o, rfl, ?_⟩, ⟨_, enum_mem o, rfl, ?_⟩,
    ⟨_, getVaArg_mem o, rfl, ?_⟩, ⟨_, forEachImpl_mem o, rfl, ?_⟩, ⟨_, forEachWith_mem o, rfl, ?_⟩,
    ⟨_, forEach_mem o, rfl, ?_⟩, ⟨_, forEachEnum_mem o, rfl, ?_⟩⟩
  all_goals simp [function, commonWords, empty, expandOnce, eval, concatImpl, staticAssert, unused,
    maxLength, argN, rseqN, forEachImpl2, deferFirst, deferOnce, concat, vaLengthImpl, vaLength,
    deferNumber, repeatWith, repeatPlain, enum, getVaArg, forEachImpl, forEachWith, forEach,
    forEachEnum]

theorem identifiers_deferFirst (o : Options) (suffix : String) :
    ∀ n ∈ Token.identifiers (deferFirst o suffix).body,
      n ∈ commonWords ∨ n ∈ ["EMPTY"].map o.name := by
  simp [deferFirst, deferOnce, function, commonWords]

/-- A level of deferral mentions the level below and the marker. -/
theorem identifiers_deferNext (o : Options) (level : Nat) :
    ∀ n ∈ Token.identifiers (deferNext o level).body,
      n ∈ commonWords ∨ n ∈ ["DEFER_" ++ toString level, "EMPTY"].map o.name := by
  simp [deferNext, function, commonWords]

/-- Applications are made of the parameters of an entry that has those of its joint. -/
theorem isSelfContained_unrolled (macroName : String) {names : List String} (count : Nat)
    {joint : Joint} (hm : "m" ∈ names)
    (hjoint : ∀ n ∈ Token.identifiers [joint.token], n ∈ names) :
    (function macroName names true (unrolled count joint)).IsSelfContained := by
  have happlication : ∀ index, Token.identifiers (application index) = ["m", variadicName] :=
    fun index => by simp [application]
  intro n (hn : n ∈ Token.identifiers (unrolled count joint))
  have hcases : n ∈ Token.identifiers [joint.token] ∨ n = "m" ∨ n = variadicName := by
    rw [unrolled, Token.identifiers_respace, Token.identifiers_flatMap, List.mem_flatMap] at hn
    obtain ⟨index, -, hn⟩ := hn
    split at hn
    · rw [happlication] at hn
      exact .inr (by simpa using hn)
    · rw [← List.singleton_append, Token.identifiers_append, happlication, List.mem_append] at hn
      exact hn.imp_right (by simp)
  rcases hcases with hn | rfl | rfl
  · exact .inl (hjoint n hn)
  · exact .inl hm
  · exact .inr ⟨rfl, rfl⟩

theorem isSelfContained_repeatEntry (o : Options) (count : Nat) :
    (repeatEntry o count).IsSelfContained :=
  isSelfContained_unrolled _ count (by decide) (by decide)

theorem isSelfContained_enumEntry (o : Options) (count : Nat) :
    (enumEntry o count).IsSelfContained :=
  isSelfContained_unrolled _ count (by decide) (by decide)

theorem isSelfContained_getEntry (o : Options) (index : Nat) :
    (getEntry o index).IsSelfContained := by
  intro n hn
  obtain rfl : n = "arg" ++ toString index := by simpa [getEntry, function] using hn
  exact .inl (List.mem_map_of_mem (List.mem_range.2 (Nat.lt_succ_self index)))

/-- **Every name in a header** is a parameter of its macro, a common word, or the stem with one of
its endings. -/
theorem cases_of_mem_identifiers {o : Options} (ho : o.check = .ok ()) {d : Definition}
    (hd : d ∈ macros o) {n : String} (hn : n ∈ Token.identifiers d.body) :
    n ∈ d.parameters.getD [] ∨ n ∈ commonWords ∨ ∃ s ∈ endings o, n = o.name s := by
  have hunique : ∀ {e}, e ∈ macros o → e.name = d.name → e = d :=
    fun he heq => List.inj_on_of_nodup_map (nodup_map_name_macros o) he hd heq
  have hself : d.IsSelfContained →
      n ∈ d.parameters.getD [] ∨ n ∈ commonWords ∨ ∃ s ∈ endings o, n = o.name s := by
    intro hself
    refine (hself n hn).imp_right fun h => .inl ?_
    rw [h.2]
    decide
  have hcalls : ∀ cs : List String, (∀ s ∈ cs, s ∈ endings o) →
      (∀ n ∈ Token.identifiers d.body, n ∈ commonWords ∨ n ∈ cs.map o.name) →
      n ∈ d.parameters.getD [] ∨ n ∈ commonWords ∨ ∃ s ∈ endings o, n = o.name s := by
    intro cs hcs hnames
    refine .inr ((hnames n hn).imp_right fun hmem => ?_)
    obtain ⟨s, hs, rfl⟩ := List.mem_map.1 hmem
    exact ⟨s, hcs s hs, rfl⟩
  have hempty : "EMPTY" ∈ endings o := List.mem_append_left _ (plain_mem_suffixes (by decide) o)
  obtain ⟨s, hs, hname⟩ := List.mem_map.1 (map_name_macros o ▸ List.mem_map_of_mem hd)
  rcases mem_suffixes hs with hplain | ⟨r, hr, hnumbered⟩
  · obtain ⟨k, rfl⟩ := exists_mentioned s hplain
    obtain ⟨e, he, hename, hnames⟩ := identifiers_subset_mentioned ho _ (List.get_mem mentioned k)
    obtain rfl := hunique he (hename.trans hname)
    exact hcalls _ (mentioned_subset_endings k o) hnames
  · obtain ⟨i, -, rfl⟩ := List.mem_map.1 hnumbered
    rcases numbered_mem_suffixes (stem_mem_dispatchStems hr) hs with
        ⟨hstem, hpos, hi⟩ | ⟨hstem, hi⟩ | ⟨hstem, hi⟩ | ⟨hstem, hi⟩ <;> rw [hstem] at hname
    · obtain ⟨level, rfl⟩ : ∃ level, i = level + 1 := ⟨i - 1, by omega⟩
      rcases Nat.eq_zero_or_pos level with rfl | hpos
      · obtain rfl := hunique (deferFirst_one_mem o) hname
        exact hcalls _ (by simpa using hempty) (identifiers_deferFirst o _)
      · obtain rfl := hunique (deferNext_mem hpos hi) hname
        have hlevel : "DEFER_" ++ toString level ∈ numberedSuffixes "DEFER_" 1 level :=
          List.mem_map_of_mem (List.mem_range'_1.2 (by omega))
        have hvisible := numberedSuffixes_subset (by omega : level ≤ o.deferLevels) hlevel
        have hbelow := List.mem_append_left dispatchStems (List.mem_filter.1 hvisible).1
        exact hcalls _ (by simpa using ⟨hbelow, hempty⟩) (identifiers_deferNext o level)
    · obtain rfl := hunique (repeatEntry_mem hi) hname
      exact hself (isSelfContained_repeatEntry o i)
    · obtain rfl := hunique (enumEntry_mem hi) hname
      exact hself (isSelfContained_enumEntry o i)
    · obtain rfl := hunique (getEntry_mem hi) hname
      exact hself (isSelfContained_getEntry o i)

/-! ### Every chain ends -/

section Table

variable {o : Options} {time : Timestamp} {table : MacroTable}
  (ho : o.check = .ok ()) (htable : table? o time = some table)

include ho htable

/-- Nothing follows on a name of no macro. -/
theorem ends_of_notMem {n : String} (hn : n ∉ (macros o).map Definition.name) :
    Ends o table n := by
  refine Acc.intro n fun b hb => ?_
  obtain ⟨d, hd, -, hb⟩ := hb
  rw [table?_eq ho, Option.some_inj] at htable
  rw [← htable, List.foldl_cons, MacroTable.getElem?_foldl_define_of_notMem hn,
    MacroTable.getElem?_define, MacroTable.getElem?_empty] at hd
  obtain rfl : guardDefinition o = d := by
    split at hd
    · exact Option.some_inj.1 hd
    · cases hd
  rcases hb with ⟨t, ht, -⟩ | ⟨stem, -, hstem, -⟩
  · exact absurd ht (by simp [guardDefinition])
  · exact absurd hstem (by simp [guardDefinition])

theorem settled_of_mem_commonWords {w : String} (hw : w ∈ commonWords) : Settled o table w := by
  refine ⟨ends_of_notMem ho htable ?_, fun stem hstem heq => ?_⟩
  · rw [map_name_macros]
    intro hmem
    obtain ⟨s, hs, heq⟩ := List.mem_map.1 hmem
    exact name_ne_of_mem_commonWords (List.mem_append_left _ hs) hw heq
  · exact absurd heq.symm (name_ne_of_mem_commonWords (List.mem_append_right _ hstem) hw)

omit ho htable in
theorem settled_of_notMem {s : String} (hs : s ∉ dispatchStems) (h : Ends o table (o.name s)) :
    Settled o table (o.name s) :=
  ⟨h, fun _ hstem heq => absurd ((o.name_inj).1 heq ▸ hstem) hs⟩

theorem settled_stem {stem : String} (hstem : stem ∈ dispatchStems)
    (h : ∀ i : Nat, Ends o table (o.name (stem ++ toString i))) :
    Settled o table (o.name stem) := by
  refine ⟨ends_of_notMem ho htable ?_, fun stem' _ heq i => ?_⟩
  · rw [map_name_macros]
    exact name_notMem_map (stem_notMem_suffixes hstem o)
  · exact (o.name_inj).1 heq ▸ h i

/-- Where a macro of the header leads to. -/
theorem mentions_or_dispatches {d : Definition} (hd : d ∈ macros o) {b : String}
    (h : LeadsTo o table d.name b) :
    d.Mentions b ∨ ∃ stem ∈ dispatchStems, o.name stem ∈ Token.identifiers d.body ∧
      ∃ i : Nat, b = o.name (stem ++ toString i) := by
  obtain ⟨e, he, -, hb⟩ := h
  rwa [Option.some_inj.1 ((installed_table ho htable d hd).symm.trans he)]

/-- **Chains end from a macro on** if they do from what it mentions. -/
theorem ends_of_settled {d : Definition} (hd : d ∈ macros o) (cs : List String)
    (hnames : ∀ n ∈ Token.identifiers d.body, n ∈ commonWords ∨ n ∈ cs.map o.name)
    (h : ∀ c ∈ cs, Settled o table (o.name c)) : Ends o table d.name := by
  have hsettled : ∀ n ∈ Token.identifiers d.body, Settled o table n := by
    intro n hn
    rcases hnames n hn with hw | hc
    · exact settled_of_mem_commonWords ho htable hw
    · obtain ⟨c, hmem, rfl⟩ := List.mem_map.1 hc
      exact h c hmem
  refine Acc.intro _ fun b hb => ?_
  rcases mentions_or_dispatches ho htable hd hb with hmentions | ⟨stem, hstem, hn, i, rfl⟩
  · exact (hsettled b hmentions.mem_identifiers).1
  · exact (hsettled _ hn).2 stem hstem rfl i

/-- Nothing follows on an entry that stands for itself. -/
theorem ends_entry {d : Definition} (hd : d ∈ macros o) (hfunction : d.isFunctionLike = true)
    (hself : d.IsSelfContained)
    (hparameters : ∀ p ∈ d.parameters.getD [], ∀ stem ∈ dispatchStems, o.name stem ≠ p) :
    Ends o table d.name := by
  have hvariadic : variadicName ∈ commonWords := by decide
  refine Acc.intro _ fun b hb => ?_
  rcases mentions_or_dispatches ho htable hd hb with hmentions | ⟨stem, hstem, hn, -⟩
  · exact absurd hmentions (hself.not_mentions hfunction b)
  · rcases hself _ hn with hmem | ⟨-, heq⟩
    · exact absurd rfl (hparameters _ hmem stem hstem)
    · exact absurd heq (name_ne_of_mem_commonWords (List.mem_append_right _ hstem) hvariadic)

/-- **The levels of deferral end** with the marker, each one calling the level below. -/
theorem ends_level {level : Nat} (hpos : 1 ≤ level) (hle : level ≤ o.deferLevels) :
    Ends o table (o.name ("DEFER_" ++ toString level)) := by
  have hempty : Settled o table (o.name "EMPTY") :=
    settled_of_notMem (by decide) (ends_of_settled ho htable (empty_mem o) []
      (by simp [empty, function]) (by simp))
  induction level, hpos using Nat.le_induction with
  | base =>
      exact ends_of_settled ho htable (deferFirst_one_mem o) ["EMPTY"]
        (identifiers_deferFirst o _) (by simpa using hempty)
  | succ level hpos ih =>
      have hbelow : Settled o table (o.name ("DEFER_" ++ toString level)) :=
        settled_of_notMem (numbered_notMem_dispatchStems level) (ih (by omega))
      exact ends_of_settled ho htable (deferNext_mem hpos hle)
        ["DEFER_" ++ toString level, "EMPTY"] (identifiers_deferNext o level)
        (by simpa using ⟨hbelow, hempty⟩)

/-- **Chains end from every numbered name on**: nothing follows on the entries of the tables. -/
theorem ends_numbered {stem : String} (hstem : stem ∈ dispatchStems) (i : Nat) :
    Ends o table (o.name (stem ++ toString i)) := by
  have hcommon : ∀ p ∈ ["s", "m"], ∀ stem ∈ dispatchStems, o.name stem ≠ p := by
    have hwords : ∀ p ∈ ["s", "m"], p ∈ commonWords := by decide
    exact fun p hp stem hstem =>
      name_ne_of_mem_commonWords (List.mem_append_right _ hstem) (hwords p hp)
  by_cases hmem : stem ++ toString i ∈ suffixes o
  · rcases numbered_mem_suffixes hstem hmem with
        ⟨rfl, hpos, hi⟩ | ⟨rfl, hi⟩ | ⟨rfl, hi⟩ | ⟨rfl, hi⟩
    · exact ends_level ho htable hpos hi
    · exact ends_entry ho htable (repeatEntry_mem hi) rfl (isSelfContained_repeatEntry o i) hcommon
    · exact ends_entry ho htable (enumEntry_mem hi) rfl (isSelfContained_enumEntry o i)
        fun p hp => hcommon p (List.mem_cons_of_mem _ hp)
    · refine ends_entry ho htable (getEntry_mem hi) rfl (isSelfContained_getEntry o i)
        fun p hp stem hstem => ?_
      obtain ⟨j, -, rfl⟩ := List.mem_map.1 hp
      exact o.name_ne_of_not_suffix (stem_not_suffix_numbered hstem "arg" j)
  · refine ends_of_notMem ho htable ?_
    rw [map_name_macros]
    exact name_notMem_map hmem

/-- Chains end from the macros without a number on, from the bottom of the list up. -/
theorem ends_mentioned {k : Nat} (hk : k < mentioned.length) :
    Ends o table (o.name (mentioned.get ⟨k, hk⟩).1) := by
  induction k using Nat.strongRecOn with
  | ind k ih =>
      obtain ⟨d, hd, hname, hnames⟩ :=
        identifiers_subset_mentioned ho (mentioned.get ⟨k, hk⟩) (List.get_mem _ _)
      rw [← hname]
      refine ends_of_settled ho htable hd _ hnames fun c hc => ?_
      rcases mentioned_below ⟨k, hk⟩ c hc with hstem | ⟨j, hj, rfl⟩
      · exact settled_stem ho htable hstem (ends_numbered ho htable hstem)
      · exact settled_of_notMem (mentioned_notMem j) (ih j hj j.2)

/-- **Every chain of macros ends.** -/
theorem ends (n : String) : Ends o table n := by
  by_cases hn : n ∈ (macros o).map Definition.name
  · rw [map_name_macros] at hn
    obtain ⟨s, hs, rfl⟩ := List.mem_map.1 hn
    rcases mem_suffixes hs with hs | ⟨r, hr, hs⟩
    · obtain ⟨k, rfl⟩ := exists_mentioned s hs
      exact ends_mentioned ho htable k.2
    · obtain ⟨i, -, rfl⟩ := List.mem_map.1 hs
      exact ends_numbered ho htable (stem_mem_dispatchStems hr) i
  · exact ends_of_notMem ho htable hn

end Table

/-- **The tables of a header stand for themselves, and no macro leads back to itself.** -/
theorem not_transGen_leadsTo {o : Options} (ho : o.check = .ok ()) (time : Timestamp) :
    ∃ table, table? o time = some table ∧
      (∀ i ≤ o.bound, ∀ stem ∈ ["REPEAT_WITH_", "ENUM_IMPL_"], ∃ d,
        table[o.name (stem ++ toString i)]? = some d ∧ d.IsSelfContained) ∧
      (∀ i < o.bound, ∃ d,
        table[o.name ("GET_VA_ARG_" ++ toString i)]? = some d ∧ d.IsSelfContained) ∧
      ∀ n, ¬ Relation.TransGen (LeadsTo o table) n n := by
  obtain ⟨table, htable⟩ : ∃ table, table? o time = some table := ⟨_, table?_eq ho time⟩
  have hinstalled := installed_table ho htable
  refine ⟨table, htable, fun i hi stem hstem => ?_, fun i hi => ?_, fun n h => ?_⟩
  · rcases List.mem_pair.1 hstem with rfl | rfl
    · exact ⟨_, hinstalled _ (repeatEntry_mem hi), isSelfContained_repeatEntry o i⟩
    · exact ⟨_, hinstalled _ (enumEntry_mem hi), isSelfContained_enumEntry o i⟩
  · exact ⟨_, hinstalled _ (getEntry_mem hi), isSelfContained_getEntry o i⟩
  · have hends : WellFounded fun b a => LeadsTo o table a b := ⟨ends ho htable⟩
    exact hends.transGen.irrefl.irrefl n (Relation.transGen_swap.2 h)

/-- The dispatch of `DEFER_N` leads to the first level, and not back. -/
theorem not_transGen_leadsTo_two :
    ∃ table, table? { bound := 2 } ⟨2024, 1, 1, 0, 0, 0, 0⟩ = some table ∧
      (∃ d, table["ZEN_REPEAT_WITH_2"]? = some d ∧ d.IsSelfContained) ∧
      LeadsTo { bound := 2 } table "ZEN_DEFER_N" "ZEN_DEFER_1" ∧
      ¬ Relation.TransGen (LeadsTo { bound := 2 } table) "ZEN_DEFER_N" "ZEN_DEFER_N" := by
  have ho : Options.check { bound := 2 } = .ok () := by decide
  obtain ⟨table, htable, hunrolled, -, hacyclic⟩ :=
    not_transGen_leadsTo ho ⟨2024, 1, 1, 0, 0, 0, 0⟩
  have hinstalled := installed_table ho htable
  have hnumber : table["ZEN_DEFER_N"]? = some (deferNumber { bound := 2 }) :=
    hinstalled _ (deferNumber_mem _)
  have hfirst : table["ZEN_DEFER_1"]? = some (deferFirst { bound := 2 } "DEFER_1") :=
    hinstalled _ (deferFirst_one_mem _)
  refine ⟨table, htable, hunrolled 2 (by decide) "REPEAT_WITH_" (by decide), ?_, hacyclic _⟩
  exact ⟨_, hnumber, by simp [hfirst], .inr ⟨"DEFER_", by decide, by decide, 1, by decide⟩⟩

end Header

end VariadicMacros
