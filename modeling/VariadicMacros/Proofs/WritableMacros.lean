/-
**Every macro of a header can be written on a line and read back.**

The replacement lists of a header are made of identifiers, numerals, parentheses and commas, with
three exceptions: the pasting of two parameters, the literal of the static assertion and the
semicolon after an unused variable.  All the others are put together from pieces, and what can be
done to pieces makes pieces again.  This module goes through the families once and shows that
each definition is writable, whatever the bound and whatever stem and guard are accepted.

Main definitions:

* `VariadicMacros.Header.IsPiece` — a legible part of a replacement list without operators.

Main results:

* `VariadicMacros.Header.isPiece_unrolled` — unrolled applications are a piece for every count;
* `VariadicMacros.Header.writable_macros` — **every macro of a header is writable**.
-/

import VariadicMacros.Proofs.MacroNames
import VariadicMacros.Proofs.WrittenDefinition

set_option autoImplicit false

namespace VariadicMacros.Header

open Token (name number mark legible legibleBefore)

/-! ### Parameters with numbers -/

/-- The names of a numbered parameter list are identifiers other than that of the ellipsis. -/
theorem parameter_numbered {stem : String} (h : Text.isIdentifier stem.toList = true)
    (count : Nat) :
    ∀ n ∈ numbered stem count, Text.isIdentifier n.toList = true ∧ n ≠ variadicName := by
  intro n hn
  obtain ⟨i, -, rfl⟩ := List.mem_map.1 hn
  refine ⟨Text.isIdentifier_append_toString h i, ?_⟩
  intro heq
  have hlast := getLast?_append_toString stem i
  rw [heq] at hlast
  exact absurd hlast (by decide)

theorem nodup_numbered (stem : String) (count : Nat) : (numbered stem count).Nodup := by
  refine List.Nodup.map_on ?_ List.nodup_range
  intro i _ j _ heq
  exact Text.toString_inj ((String.append_right_inj _).1 heq)

/-- A numbered name is not a word without a digit at its end. -/
theorem notMem_numbered {stem s : String} (h : s.toList.getLast?.any Char.isDigit = false)
    (count : Nat) : s ∉ numbered stem count := by
  intro hmem
  obtain ⟨i, -, rfl⟩ := List.mem_map.1 hmem
  rw [getLast?_append_toString] at h
  cases h

/-- A list with something in it is written as it is. -/
theorem written_eq_self {items : List String} (h : items.length ≠ 0) : written items = items := by
  rw [written, if_neg]
  rwa [List.isEmpty_iff, ← List.length_eq_zero_iff]

/-! ### Pieces of replacement lists -/

theorem isNumeral_toString (n : Nat) : Token.isNumeral (toString n).toList = true := by
  obtain ⟨c, cs, hcs, hc, hall⟩ := Text.toList_toString_eq_cons n
  rw [hcs, Token.isNumeral, hc, List.all_eq_true.2 hall]
  rfl

/-- A piece of a replacement list: it is legible in front of every token that stands apart, and
holds no operator. -/
structure IsPiece (ts : List Token) : Prop where
  legible : ∀ next : Option Token, next.all Token.standsApart = true → legibleBefore next ts = true
  quiet : (ts.all fun t => !t.isMark "#" && !t.isMark "##") = true

namespace IsPiece

variable {ts us : List Token}

theorem nil : IsPiece [] := ⟨fun _ _ => rfl, rfl⟩

theorem cons {t : Token} (hmark : (!t.isMark "#" && !t.isMark "##") = true)
    (hfits : ∀ next : Option Token, (ts.head?.or next).all Token.standsApart = true →
      t.fits (ts.head?.or next) = true)
    (hapart : ts.head?.all Token.standsApart = true) (h : IsPiece ts) : IsPiece (t :: ts) := by
  refine ⟨fun next hnext => ?_, ?_⟩
  · have hhead : (ts.head?.or next).all Token.standsApart = true := by
      cases hts : ts.head? with
      | none => exact hnext
      | some u => rwa [hts] at hapart
    rw [Token.legibleBefore_cons, hfits next hhead, h.legible next hnext]
    rfl
  · rw [List.all_cons, hmark, h.quiet]
    rfl

theorem name_cons {n : String} (hn : Text.isIdentifier n.toList = true) (spaced : Bool)
    (hapart : ts.head?.all Token.standsApart = true) (h : IsPiece ts) :
    IsPiece (⟨.identifier, n, spaced⟩ :: ts) := by
  refine cons ?_ (fun next hnext => ?_) hapart h
  · simp [Token.isMark]
  · simp [Token.fits, hn, hnext]

theorem name {n : String} (hn : Text.isIdentifier n.toList = true) : IsPiece [Token.name n] :=
  name_cons hn false rfl nil

theorem number (n : Nat) : IsPiece [Token.number (toString n)] := by
  refine cons ?_ (fun next hnext => ?_) rfl nil
  · simp [Token.isMark, Token.number]
  · simpa [Token.fits, Token.number, isNumeral_toString, -Nat.toString_eq_repr] using hnext

/-- The ellipsis is a piece. -/
theorem ellipsis : IsPiece [ellipsisArguments] := name (by decide)

/-- Pieces stand one after the other if the second one stands apart. -/
theorem append (h : IsPiece ts) (h' : IsPiece us)
    (hapart : us.head?.all Token.standsApart = true) : IsPiece (ts ++ us) := by
  refine ⟨fun next hnext => ?_, ?_⟩
  · have hhead : (us.head?.or next).all Token.standsApart = true := by
      cases hus : us.head? with
      | none => exact hnext
      | some u => rwa [hus] at hapart
    rw [Token.legibleBefore_append, h.legible _ hhead, h'.legible next hnext]
    rfl
  · rw [List.all_append, h.quiet, h'.quiet]
    rfl

/-- Neither test looks at the space in front of a piece. -/
theorem respace (h : IsPiece ts) (b : Bool) : IsPiece (Token.respace b ts) := by
  cases ts with
  | nil => exact nil
  | cons t ts => exact ⟨fun next hnext => h.legible next hnext, h.quiet⟩

/-- Pieces that stand apart, one after the other. -/
theorem flatMap {α : Type} {f : α → List Token} {l : List α}
    (h : ∀ a ∈ l, IsPiece (f a) ∧ (f a).head?.all Token.standsApart = true) :
    IsPiece (l.flatMap f) ∧ (l.flatMap f).head?.all Token.standsApart = true := by
  induction l with
  | nil => exact ⟨nil, rfl⟩
  | cons a l ih =>
      obtain ⟨hrest, hapart⟩ := ih fun b hb => h b (by simp [hb])
      obtain ⟨ha, hfirst⟩ := h a (by simp)
      rw [List.flatMap_cons]
      refine ⟨ha.append hrest hapart, ?_⟩
      rw [List.head?_append]
      cases hhead : (f a).head? with
      | none => exact hapart
      | some t => rwa [hhead] at hfirst

theorem comma_cons (h : IsPiece ts) (b : Bool) :
    IsPiece (mark "," :: Token.respace b ts) := by
  have hfits : ∀ next, (mark ",").fits next = true := by
    intro next
    simp [Token.fits, Token.solid, mark]
  refine ⟨fun next hnext => ?_, ?_⟩
  · rw [Token.legibleBefore_cons, hfits, (h.respace b).legible next hnext]
    rfl
  · rw [List.all_cons, (h.respace b).quiet]
    rfl

/-- Pieces with commas between them are a piece. -/
theorem separated {parts : List (List Token)} (h : ∀ ts ∈ parts, IsPiece ts) (b : Bool) :
    IsPiece (Header.separated b parts) := by
  cases parts with
  | nil => exact nil
  | cons ts parts =>
      obtain ⟨hrest, hapart⟩ := flatMap (l := parts)
        (f := fun ts => mark "," :: Token.respace b ts) fun us hus =>
          ⟨(h us (by simp [hus])).comma_cons b, rfl⟩
      exact (h ts (by simp)).append hrest hapart

theorem parenthesized (h : IsPiece ts) : IsPiece (Header.parenthesized ts) := by
  have hopen : ∀ next, (mark "(").fits next = true := by
    intro next
    simp [Token.fits, Token.solid, mark]
  have hclose : IsPiece [mark ")"] := ⟨fun _ _ => rfl, rfl⟩
  have hinner := h.append hclose rfl
  refine ⟨fun next hnext => ?_, ?_⟩
  · rw [Header.parenthesized, List.cons_append, Token.legibleBefore_cons, hopen,
      hinner.legible next hnext]
    rfl
  · rw [Header.parenthesized, List.cons_append, List.all_cons, hinner.quiet]
    rfl

/-- A call whose arguments are pieces is a piece. -/
theorem tightCall {f : String} (hf : Text.isIdentifier f.toList = true)
    {parts : List (List Token)} (h : ∀ ts ∈ parts, IsPiece ts) :
    IsPiece (Header.tightCall f parts) :=
  name_cons hf false rfl (separated h false).parenthesized

theorem looseCall {f : String} (hf : Text.isIdentifier f.toList = true)
    {parts : List (List Token)} (h : ∀ ts ∈ parts, IsPiece ts) :
    IsPiece (Header.looseCall f parts) :=
  name_cons hf false rfl (separated h true).parenthesized

end IsPiece

theorem isPiece_application (index : Nat) : IsPiece (application index) := by
  refine (IsPiece.tightCall (by decide) ?_).respace true
  simpa using ⟨IsPiece.number index, IsPiece.ellipsis⟩

/-- Unrolled applications are a piece for every count. -/
theorem isPiece_unrolled (count : Nat) (joint : Joint) : IsPiece (unrolled count joint) := by
  refine IsPiece.respace (IsPiece.flatMap fun index _ => ?_).1 false
  have happlication := isPiece_application index
  split
  · exact ⟨happlication, rfl⟩
  · cases joint with
    | separator => exact ⟨.name_cons (by decide) true rfl happlication, rfl⟩
    | comma => exact ⟨happlication.comma_cons true, rfl⟩

/-- The numbers from a bound down to one, with commas between them, are a piece. -/
theorem isPiece_descending (bound : Nat) :
    IsPiece (separated false ((descending bound).map fun n => [number n])) := by
  refine IsPiece.separated (fun ts hts => ?_) false
  obtain ⟨n, hn, rfl⟩ := List.mem_map.1 hts
  obtain ⟨i, -, rfl⟩ := List.mem_map.1 hn
  exact .number (bound - i)

/-! ### The families -/

section Writable

variable {o : Options} (ho : o.check = .ok ())

include ho

/-- A function-like macro is writable when its parameters are identifiers and its replacement list
is legible, starts without a space and has its operands. -/
theorem writable_function {suffix : String} (hsuffix : Text.isIdentifier suffix.toList = true)
    {parameters : List String} {variadic : Bool} {body : List Token}
    (hparameter : ∀ n ∈ parameters, Text.isIdentifier n.toList = true ∧ n ≠ variadicName)
    (hnodup : parameters.Nodup) (hbody : legible (Token.respace true body) = true)
    (hfirst : Token.respace false body = body)
    (hoperators : Definition.checkOperators (function (o.name suffix) parameters variadic body) =
      .ok (function (o.name suffix) parameters variadic body)) :
    (function (o.name suffix) parameters variadic body).Writable where
  name := Options.isIdentifier_name ho _ hsuffix
  parameter := hparameter
  nodup := hnodup
  function _ := rfl
  body := hbody
  first := hfirst
  operators := hoperators

/-- It is writable when its replacement list is a piece that starts without a space. -/
theorem writable_piece {suffix : String} (hsuffix : Text.isIdentifier suffix.toList = true)
    {parameters : List String} {variadic : Bool} {body : List Token}
    (hparameter : ∀ n ∈ parameters, Text.isIdentifier n.toList = true ∧ n ≠ variadicName)
    (hnodup : parameters.Nodup) (hbody : IsPiece body)
    (hfirst : Token.respace false body = body) :
    (function (o.name suffix) parameters variadic body).Writable :=
  writable_function ho hsuffix hparameter hnodup ((hbody.respace true).legible none rfl) hfirst
    (Definition.checkOperators_of_isQuiet hbody.quiet)

/-- The macros that count arguments are writable. -/
theorem writable_counting : ∀ d ∈ definitions (counting o), d.Writable := by
  have hbound := (o.check_eq_ok_iff.1 ho).1
  have hnumbered : written (numbered "_" o.bound) = numbered "_" o.bound :=
    written_eq_self (by rw [length_numbered]; omega)
  have hdescending : written (descending o.bound) = descending o.bound :=
    written_eq_self (by rw [length_descending]; omega)
  simp only [counting, definitions_append, definitions_docs, List.nil_append, variadic, fixed,
    definitions_define, definitions_nil, List.forall_mem_cons, List.not_mem_nil, false_imp_iff,
    implies_true, and_true, hnumbered, hdescending]
  refine ⟨?_, ?_, ?_, ?_⟩
  · have hsequence : IsPiece (tightCall (o.name "RSEQ_N") []) :=
      .tightCall (Options.isIdentifier_name ho "RSEQ_N" (by decide)) (by simp)
    exact writable_piece ho (by decide) (by simp) (by simp)
      (.tightCall (Options.isIdentifier_name ho "VA_LENGTH_IMPL" (by decide))
        (by simp [IsPiece.ellipsis, hsequence])) rfl
  · exact writable_piece ho (by decide) (by simp) (by simp)
      (.tightCall (Options.isIdentifier_name ho "ARG_N" (by decide))
        (by simp [IsPiece.ellipsis])) rfl
  · refine writable_piece ho (by decide) ?_ ?_ (.name (by decide)) rfl
    · intro n hn
      rcases List.mem_append.1 hn with hn | hn
      · exact parameter_numbered (by decide) _ n hn
      · rw [List.mem_singleton.1 hn]
        decide
    · refine List.nodup_append.2 ⟨nodup_numbered _ _, by simp, ?_⟩
      rintro a ha b hb rfl
      rw [List.mem_singleton.1 hb] at ha
      exact notMem_numbered (by decide) _ ha
  · refine writable_piece ho (by decide) (by simp) (by simp) (isPiece_descending o.bound) ?_
    cases o.bound with
    | zero => rfl
    | succ bound =>
        rw [descending, List.range_succ_eq_map]
        rfl

/-- The macros that delay expansion are writable. -/
theorem writable_deferral : ∀ d ∈ definitions (deferral o), d.Writable := by
  have hmarker : IsPiece [ellipsisArguments, (name (o.name "EMPTY")).afterSpace] :=
    .name_cons (by decide) false rfl
      (.name_cons (Options.isIdentifier_name ho "EMPTY" (by decide)) true rfl .nil)
  have honce : ∀ {suffix : String}, Text.isIdentifier suffix.toList = true →
      (function (o.name suffix) [] true (deferOnce o)).Writable := fun hsuffix =>
    writable_piece ho hsuffix (by simp) (by simp) (hmarker.append (.parenthesized .nil) rfl) rfl
  have hlevel : ∀ level : Nat, Text.isIdentifier ("DEFER_" ++ toString level).toList = true :=
    Text.isIdentifier_append_toString (by decide)
  simp only [deferral, definitions_append, definitions_docs, List.append_nil, variadic, fixed,
    definitions_define, definitions_table, definitions_text, Line.blank, definitions_nil,
    List.forall_mem_cons, List.forall_mem_append, List.not_mem_nil, false_imp_iff,
    implies_true, and_true]
  refine ⟨⟨⟨?_, honce (by decide), honce (by decide), ?_⟩, ?_, ?_⟩, ?_⟩
  · exact writable_piece ho (by decide) (by simp) (by simp) .nil rfl
  · intro d hd
    obtain ⟨level, -, hd⟩ := List.mem_filterMap.1 hd
    obtain rfl : _ = d := Option.some_inj.1 hd
    have hcall := IsPiece.tightCall (Options.isIdentifier_name ho _ (hlevel (level - 1)))
      (List.forall_mem_singleton.2 hmarker)
    exact writable_piece ho (hlevel level) (by simp) (by simp)
      (hcall.append (.parenthesized .nil) rfl) rfl
  · have hstem := IsPiece.name (Options.isIdentifier_name ho "DEFER_" (by decide))
    have hn : IsPiece [name "n"] := .name (by decide)
    have hcall := IsPiece.looseCall (Options.isIdentifier_name ho "CONCAT" (by decide))
      (List.forall_mem_cons.2 ⟨hstem, List.forall_mem_singleton.2 hn⟩)
    exact writable_piece ho (by decide) (by decide) (by simp)
      (hcall.append (.parenthesized .ellipsis) rfl) rfl
  · exact writable_piece ho (by decide) (by decide) (by simp) (.name (by decide)) rfl
  · exact writable_piece ho (by decide) (by simp) (by simp) .ellipsis rfl

/-- The helpers are writable. -/
theorem writable_helpers : ∀ d ∈ definitions (helpers o), d.Writable := by
  simp only [helpers, definitions_append, definitions_docs, List.nil_append, List.append_nil,
    fixed, definitions_define, definitions_text, Line.blank, definitions_nil,
    List.forall_mem_cons, List.forall_mem_append, List.not_mem_nil, false_imp_iff,
    implies_true, and_true]
  refine ⟨⟨⟨⟨?_, ?_⟩, ?_⟩, ?_⟩, ?_⟩
  · have ha : IsPiece [name "a"] := .name (by decide)
    have hb : IsPiece [name "b"] := .name (by decide)
    exact writable_piece ho (by decide) (by decide) (by simp)
      (.looseCall (Options.isIdentifier_name ho "CONCAT_IMPL" (by decide)) (by simp [ha, hb])) rfl
  -- These three hold an operator, a literal or a semicolon, and no name of a macro.
  · exact writable_function ho (by decide) (by decide) (by simp) (by decide) rfl rfl
  · exact writable_function ho (by decide) (by decide) (by simp) (by decide) rfl rfl
  · exact writable_function ho (by decide) (by decide) (by simp) (by decide) rfl rfl
  · have hmaximum := Options.isIdentifier_name ho "VA_MAX_LENGTH" (by decide)
    refine ⟨hmaximum, by simp, by simp, by simp, ?_, rfl, rfl⟩
    exact ((IsPiece.number o.bound).respace true).legible none rfl

/-- The macros that repeat applications are writable. -/
theorem writable_repetition : ∀ d ∈ definitions (repetition o), d.Writable := by
  have hs : IsPiece [name "s"] := .name (by decide)
  have hn : IsPiece [name "n"] := .name (by decide)
  have hm : IsPiece [name "m"] := .name (by decide)
  simp only [repetition, definitions_append, definitions_docs, List.append_nil, variadic,
    definitions_define, definitions_table, definitions_text, Line.blank, definitions_nil,
    List.forall_mem_cons, List.forall_mem_append, List.not_mem_nil, false_imp_iff,
    implies_true, and_true]
  refine ⟨⟨?_, ?_⟩, ?_⟩
  · intro d hd
    obtain ⟨count, -, hd⟩ := List.mem_filterMap.1 hd
    obtain rfl : _ = d := Option.some_inj.1 hd
    rw [o.name_append_toString]
    exact writable_piece ho (Text.isIdentifier_append_toString (by decide) count) (by decide)
      (by decide) (isPiece_unrolled count .separator) (Definition.respace_respace _ _ _)
  · have hstem := IsPiece.name (Options.isIdentifier_name ho "REPEAT_WITH_" (by decide))
    have hcall := IsPiece.looseCall (Options.isIdentifier_name ho "CONCAT" (by decide))
      (List.forall_mem_cons.2 ⟨hstem, List.forall_mem_singleton.2 hn⟩)
    exact writable_piece ho (by decide) (by decide) (by decide)
      (hcall.append (.parenthesized (.separated (by simp [hs, hm, IsPiece.ellipsis]) false)) rfl)
      rfl
  · exact writable_piece ho (by decide) (by decide) (by decide)
      (.tightCall (Options.isIdentifier_name ho "REPEAT_WITH" (by decide))
        (by simp [IsPiece.nil, hn, hm, IsPiece.ellipsis])) rfl

/-- The macros that list applications are writable. -/
theorem writable_enumeration : ∀ d ∈ definitions (enumeration o), d.Writable := by
  simp only [enumeration, definitions_append, definitions_docs, List.append_nil, variadic,
    definitions_define, definitions_table, definitions_text, Line.blank, definitions_nil,
    List.forall_mem_cons, List.forall_mem_append, List.not_mem_nil, false_imp_iff,
    implies_true, and_true]
  refine ⟨?_, ?_⟩
  · intro d hd
    obtain ⟨count, -, hd⟩ := List.mem_filterMap.1 hd
    obtain rfl : _ = d := Option.some_inj.1 hd
    rw [o.name_append_toString]
    exact writable_piece ho (Text.isIdentifier_append_toString (by decide) count) (by decide)
      (by decide) (isPiece_unrolled count .comma) (Definition.respace_respace _ _ _)
  · have hn : IsPiece [name "n"] := .name (by decide)
    have hm : IsPiece [name "m"] := .name (by decide)
    have hstem := IsPiece.name (Options.isIdentifier_name ho "ENUM_IMPL_" (by decide))
    have hcall := IsPiece.looseCall (Options.isIdentifier_name ho "CONCAT" (by decide))
      (List.forall_mem_cons.2 ⟨hstem, List.forall_mem_singleton.2 hn⟩)
    exact writable_piece ho (by decide) (by decide) (by decide)
      (hcall.append (.parenthesized (.separated (by simp [hm, IsPiece.ellipsis]) false)) rfl) rfl

/-- The macros that select an argument are writable. -/
theorem writable_selection : ∀ d ∈ definitions (selection o), d.Writable := by
  simp only [selection, definitions_append, definitions_docs, List.append_nil, variadic,
    definitions_define, definitions_table, definitions_text, Line.blank, definitions_nil,
    List.forall_mem_cons, List.forall_mem_append, List.not_mem_nil, false_imp_iff,
    implies_true, and_true]
  refine ⟨?_, ?_⟩
  · intro d hd
    obtain ⟨index, -, hd⟩ := List.mem_filterMap.1 hd
    obtain rfl : _ = d := Option.some_inj.1 hd
    have hargument : Text.isIdentifier ("arg" ++ toString index).toList = true :=
      Text.isIdentifier_append_toString (by decide) index
    rw [o.name_append_toString]
    exact writable_piece ho (Text.isIdentifier_append_toString (by decide) index)
      (parameter_numbered (by decide) _) (nodup_numbered _ _) (.name hargument) rfl
  · have hn : IsPiece [name "n"] := .name (by decide)
    have hstem := IsPiece.name (Options.isIdentifier_name ho "GET_VA_ARG_" (by decide))
    have hcall := IsPiece.looseCall (Options.isIdentifier_name ho "CONCAT" (by decide))
      (List.forall_mem_cons.2 ⟨hstem, List.forall_mem_singleton.2 hn⟩)
    exact writable_piece ho (by decide) (by decide) (by decide)
      (hcall.append (.parenthesized .ellipsis) rfl) rfl

/-- The for-each macros are writable. -/
theorem writable_composition : ∀ d ∈ definitions (composition o), d.Writable := by
  have hs : IsPiece [name "s"] := .name (by decide)
  have hi : IsPiece [name "i"] := .name (by decide)
  have hm : IsPiece [name "m"] := .name (by decide)
  have hstep := IsPiece.name (Options.isIdentifier_name ho "FOR_EACH_IMPL" (by decide))
  have hlength : IsPiece (tightCall (o.name "VA_LENGTH") [[ellipsisArguments]]) :=
    .tightCall (Options.isIdentifier_name ho "VA_LENGTH" (by decide)) (by simp [IsPiece.ellipsis])
  have hget : IsPiece (looseCall (o.name "GET_VA_ARG") [[name "i"], [ellipsisArguments]]) :=
    .looseCall (Options.isIdentifier_name ho "GET_VA_ARG" (by decide))
      (by simp [hi, IsPiece.ellipsis])
  simp only [composition, definitions_append, definitions_docs, List.append_nil, variadic,
    definitions_define, definitions_nil, List.forall_mem_cons, List.forall_mem_append,
    List.not_mem_nil, false_imp_iff, implies_true, and_true]
  refine ⟨⟨⟨⟨?_, ?_⟩, ?_⟩, ?_⟩, ?_⟩
  · exact writable_piece ho (by decide) (by decide) (by decide)
      (.looseCall (Options.isIdentifier_name ho "FOR_EACH_IMPL2" (by decide))
        (by simp [hi, hm, hget])) rfl
  · exact writable_piece ho (by decide) (by decide) (by decide)
      (.looseCall (by decide) (by simp [hi, IsPiece.ellipsis])) rfl
  · exact writable_piece ho (by decide) (by decide) (by decide)
      (.looseCall (Options.isIdentifier_name ho "REPEAT_WITH" (by decide))
        (by simp [hs, hm, hlength, hstep, IsPiece.ellipsis])) rfl
  · exact writable_piece ho (by decide) (by decide) (by decide)
      (.looseCall (Options.isIdentifier_name ho "FOR_EACH_WITH" (by decide))
        (by simp [IsPiece.nil, hm, IsPiece.ellipsis])) rfl
  · exact writable_piece ho (by decide) (by decide) (by decide)
      (.looseCall (Options.isIdentifier_name ho "ENUM" (by decide))
        (by simp [hm, hlength, hstep, IsPiece.ellipsis])) rfl

/-- **Every macro of a header is writable.** -/
theorem writable_macros : ∀ d ∈ macros o, d.Writable := by
  simp only [macros, families, List.flatMap_cons, List.flatMap_nil, Family.blocks,
    List.append_nil, definitions_append, List.forall_mem_append]
  exact ⟨writable_counting ho, writable_deferral ho, writable_helpers ho, writable_repetition ho,
    writable_enumeration ho, writable_selection ho, writable_composition ho⟩

end Writable

end VariadicMacros.Header
