/-
**A definition is read back from the line that writes it.**

A header holds definitions as data and writes each as one line.  Reading the line takes it apart
again: the directive's keyword, the name, the parameters with their commas, and the replacement
list.  This module follows a definition through both and shows that nothing is lost, for every
definition whose names are identifiers and whose replacement list is legible.

Main definitions:

* `VariadicMacros.Header.Line.definitionTokens` — the tokens after `#define` on a written line;
* `VariadicMacros.Definition.Writable` — a definition that a line can hold;
* `VariadicMacros.Definition.isQuiet` — a replacement list without `#` and `##`.

Main results:

* `VariadicMacros.Header.Line.toList_writeOnto_define` — the characters of a written line;
* `VariadicMacros.Definition.ofTokens_definitionTokens` — the tokens of a line are read as its
  definition;
* `VariadicMacros.Directive.ofLine_define` — **a written line is read as its definition**.
-/

import VariadicMacros.Directive
import VariadicMacros.Header.Layout
import VariadicMacros.Proofs.DefinitionGrammar
import VariadicMacros.Proofs.Legible

set_option autoImplicit false

namespace VariadicMacros

open Token (name mark)

/-! ### The characters of a written line -/

namespace Header.Line

/-- The tokens of a parameter list after its first parameter. -/
def furtherParameters (spacing : Spacing) (variadic : Bool) : List String → List Token
  | [] =>
    if variadic then [mark ",", ⟨.punctuator, "...", spacing.ellipsis⟩, mark ")"] else [mark ")"]
  | n :: ns =>
    mark "," :: ⟨.identifier, n, spacing.names⟩ :: furtherParameters spacing variadic ns

/-- The tokens of a parameter list with its parentheses. -/
def parameterTokens (spacing : Spacing) (d : Definition) : List Token :=
  match d.parameters with
  | none => []
  | some [] => mark "(" :: if d.variadic then [mark "...", mark ")"] else [mark ")"]
  | some (n :: ns) => mark "(" :: name n :: furtherParameters spacing d.variadic ns

/-- The tokens after `#define` on the line of a definition. -/
def definitionTokens (spacing : Spacing) (d : Definition) : List Token :=
  (name d.name).afterSpace :: (parameterTokens spacing d ++ Token.respace true d.body)

theorem toList_bodyOnto (out : String) (body : List Token) :
    (bodyOnto out body).toList = out.toList ++ Token.written (Token.respace true body) := by
  cases body with
  | nil => simp [bodyOnto]
  | cons t ts => simp [bodyOnto, Token.toList_spellOnto, Token.chars]

theorem written_furtherParameters (spacing : Spacing) (variadic : Bool) (n : String)
    (ns : List String) :
    Token.written (name n :: furtherParameters spacing variadic ns) =
      ((Spacing.comma spacing.names).intercalate (n :: ns)).toList ++
        ((if variadic then Spacing.comma spacing.ellipsis ++ "..." else "") ++ ")").toList := by
  -- A comma and the space of the token after it are together the separator that is written.
  have hcomma : ∀ (b : Bool) (k : Kind) (text : String) (ts : List Token),
      Token.written (mark "," :: ⟨k, text, b⟩ :: ts) =
        (Spacing.comma b).toList ++ text.toList ++ Token.written ts := by
    intro b k text ts
    cases b <;> simp [Token.chars, mark, Spacing.comma]
  induction ns generalizing n with
  | nil =>
      rw [furtherParameters, String.intercalate_singleton]
      cases variadic with
      | false => simp [Token.chars, name, mark]
      | true =>
          rw [Token.written_cons, if_pos rfl, hcomma]
          simp [Token.chars, name, mark]
  | cons m ns ih =>
      have hm : Token.written (⟨.identifier, m, spacing.names⟩ ::
          furtherParameters spacing variadic ns) =
            Token.chars ⟨.identifier, m, spacing.names⟩ ++
              Token.written (furtherParameters spacing variadic ns) := rfl
      have hih := ih m
      rw [Token.written_cons, show (name m).chars = m.toList from rfl] at hih
      rw [furtherParameters, Token.written_cons, hcomma, String.intercalate_cons_cons,
        String.toList_append, String.toList_append, show (name n).chars = n.toList from rfl,
        List.append_assoc, hih]
      simp

/-- The parameter list of a line has the characters of its tokens. -/
theorem toList_parameterText (spacing : Spacing) (d : Definition) :
    (parameterText spacing d).toList = Token.written (parameterTokens spacing d) := by
  unfold parameterText parameterTokens
  cases d.parameters with
  | none => rfl
  | some names =>
      cases names with
      | nil => cases d.variadic <;> simp [Token.chars, mark]
      | cons n ns =>
          rw [Token.written_cons, written_furtherParameters]
          cases d.variadic <;> simp [Token.chars, mark]

/-- The characters that the line of a definition appends. -/
theorem toList_writeOnto_define (out : String) (spacing : Spacing) (d : Definition) :
    (writeOnto out (.define spacing d)).toList =
      out.toList ++ ("#define".toList ++ Token.written (definitionTokens spacing d)) ++ ['\n'] := by
  simp [writeOnto, definitionTokens, toList_bodyOnto, toList_parameterText, Token.chars,
    Token.afterSpace, name]

end Header.Line

namespace Definition

open Header (Spacing)
open Header.Line

/-! ### The words of the parameters -/

/-- What is written after a parameter are the words that follow it and the parenthesis that closes
the list. -/
theorem exists_furtherParameters (spacing : Spacing) (variadic : Bool) (ns : List String) :
    ∃ inside, furtherParameters spacing variadic ns = inside ++ [mark ")"] ∧
      inside.map Token.word = if ns ≠ [] ∨ variadic = true then
        Word.mark "," :: parameterWords ns variadic else [] := by
  induction ns with
  | nil =>
      cases variadic with
      | false => exact ⟨[], rfl, rfl⟩
      | true => exact ⟨[mark ",", ⟨.punctuator, "...", spacing.ellipsis⟩], rfl, rfl⟩
  | cons n ns ih =>
      obtain ⟨inside, hfurther, hinside⟩ := ih
      refine ⟨mark "," :: ⟨.identifier, n, spacing.names⟩ :: inside, ?_, ?_⟩
      · rw [furtherParameters, hfurther]
        rfl
      · rw [if_pos (.inl (List.cons_ne_nil n ns)), parameterWords_cons, ← hinside]
        rfl

/-- A parameter list is written between parentheses. -/
theorem exists_parameterTokens (spacing : Spacing) {d : Definition} {names : List String}
    (hnames : d.parameters = some names) :
    ∃ inside, parameterTokens spacing d = mark "(" :: (inside ++ [mark ")"]) ∧
      inside.map Token.word = parameterWords names d.variadic := by
  unfold parameterTokens
  rw [hnames]
  cases names with
  | nil =>
      cases d.variadic with
      | false => exact ⟨[], rfl, rfl⟩
      | true => exact ⟨[mark "..."], rfl, rfl⟩
  | cons n ns =>
      obtain ⟨inside, hfurther, hinside⟩ := exists_furtherParameters spacing d.variadic ns
      refine ⟨Token.name n :: inside, ?_, ?_⟩
      · simp only [hfurther]
        rfl
      · rw [parameterWords_cons, ← hinside]
        rfl

/-! ### Reading a definition -/

/-- A definition that a line can hold and give back. -/
structure Writable (d : Definition) : Prop where
  name : Text.isIdentifier d.name.toList = true
  /-- The parameters are identifiers other than the name of the ellipsis. -/
  parameter : ∀ n ∈ d.parameters.getD [], Text.isIdentifier n.toList = true ∧ n ≠ variadicName
  nodup : (d.parameters.getD []).Nodup
  /-- Only a parameter list can end with an ellipsis. -/
  function : d.variadic = true → d.parameters.isSome = true
  body : Token.legible (Token.respace true d.body) = true
  first : Token.respace false d.body = d.body
  operators : checkOperators d = .ok d

theorem respace_respace (b c : Bool) (ts : List Token) :
    Token.respace b (Token.respace c ts) = Token.respace b ts := by
  cases ts <;> rfl

/-- The tokens of a line declare its definition. -/
theorem declares_definitionTokens {d : Definition} (h : d.Writable) (spacing : Spacing) :
    Declares (definitionTokens spacing d) d := by
  obtain ⟨macroName, parameters, variadic, body⟩ := d
  have hfirst : Token.respace false (Token.respace true body) = body :=
    (respace_respace _ _ _).trans h.first
  cases parameters with
  | none =>
      obtain rfl : variadic = false := by
        rw [Bool.eq_false_iff]
        exact fun hvariadic => absurd (h.function hvariadic) Bool.false_ne_true
      have hspaced : ∀ u ∈ (Token.respace true body).head?,
          u.isMark "(" = true → u.spaced = true := by
        cases body <;> simp [Token.respace]
      have hdeclares : Declares ((Token.name macroName).afterSpace :: Token.respace true body)
          ⟨macroName, none, false, Token.respace false (Token.respace true body)⟩ :=
        .objectLike rfl hspaced
      rwa [hfirst] at hdeclares
  | some names =>
      obtain ⟨inside, htokens, hinside⟩ :=
        exists_parameterTokens spacing (d := ⟨macroName, some names, variadic, body⟩) rfl
      have hnames : variadicName ∉ names := fun hmem => (h.parameter _ hmem).2 rfl
      have hdeclares : Declares ((Token.name macroName).afterSpace :: mark "(" ::
          (inside ++ mark ")" :: Token.respace true body))
          ⟨macroName, some names, variadic, Token.respace false (Token.respace true body)⟩ :=
        .functionLike rfl rfl rfl hinside h.nodup hnames rfl
      rw [hfirst] at hdeclares
      rwa [definitionTokens, htokens, List.cons_append, List.append_assoc]

/-- The tokens of a line are read as its definition. -/
theorem ofTokens_definitionTokens {d : Definition} (h : d.Writable) (spacing : Spacing) :
    ofTokens (definitionTokens spacing d) = .ok d := by
  rw [ofTokens, readHead_eq_ok_iff.2 (declares_definitionTokens h spacing)]
  exact h.operators

/-! ### Legible lines -/

theorem legibleBefore_furtherParameters (spacing : Spacing) (variadic : Bool)
    {ns : List String} (h : ∀ n ∈ ns, Text.isIdentifier n.toList = true)
    (next : Option Token) :
    Token.legibleBefore next (furtherParameters spacing variadic ns) = true ∧
      (furtherParameters spacing variadic ns).head?.all Token.standsApart = true ∧
      (furtherParameters spacing variadic ns).head?.isSome = true := by
  induction ns with
  | nil =>
      cases variadic <;>
        simp [furtherParameters, mark, Token.fits, Token.solid, Token.standsApart]
  | cons n ns ih =>
      obtain ⟨hlegible, hapart, hsome⟩ := ih fun m hm => h m (by simp [hm])
      obtain ⟨t, ht⟩ := Option.isSome_iff_exists.1 hsome
      rw [ht] at hapart
      refine ⟨?_, by simp [furtherParameters, mark, Token.standsApart],
        by simp [furtherParameters]⟩
      simpa [furtherParameters, mark, Token.fits, Token.solid, hlegible, ht, h n (by simp)]
        using hapart

/-- The tokens of a line are legible. -/
theorem legible_definitionTokens {d : Definition} (h : d.Writable) (spacing : Spacing) :
    Token.legible (definitionTokens spacing d) = true := by
  have hbody : (Token.respace true d.body).head?.all Token.standsApart = true := by
    cases d.body <;> simp [Token.standsApart]
  have hlegible : Token.legibleBefore none (Token.respace true d.body) = true := h.body
  rw [Token.legible, definitionTokens, Token.legibleBefore_cons, Token.legibleBefore_append,
    hlegible]
  have hname := h.name
  unfold parameterTokens
  cases hp : d.parameters with
  | none => simpa [Token.fits, Token.afterSpace, Token.name, hname] using hbody
  | some names =>
      have hparameter := h.parameter
      rw [hp, Option.getD_some] at hparameter
      cases names with
      | nil =>
          cases d.variadic <;>
            simp [Token.fits, Token.afterSpace, Token.name, mark, hname, Token.standsApart,
              Token.solid]
      | cons n ns =>
          obtain ⟨hfurther, hapart, hsome⟩ := legibleBefore_furtherParameters spacing d.variadic
            (fun m hm => (hparameter m (List.mem_cons_of_mem _ hm)).1)
            ((Token.respace true d.body).head?.or none)
          obtain ⟨t, ht⟩ := Option.isSome_iff_exists.1 hsome
          rw [ht] at hapart
          simp only [Option.or_none] at hfurther
          simpa [Token.fits, Token.afterSpace, Token.name, mark, hname, Token.standsApart,
            Token.solid, hfurther, ht, (hparameter n (by simp)).1] using hapart

/-! ### Operators -/

/-- Whether a replacement list holds neither `#` nor `##`. -/
def isQuiet (d : Definition) : Bool := d.body.all fun t => !t.isMark "#" && !t.isMark "##"

theorem hasStrayStringize_of_all (d : Definition) {body : List Token}
    (h : ∀ t ∈ body, t.isMark "#" = false) : hasStrayStringize d body = false := by
  induction body with
  | nil => rfl
  | cons t ts ih =>
      rw [hasStrayStringize, h t (by simp)]
      simpa using ih fun u hu => h u (by simp [hu])

/-- Without operators there is nothing to check. -/
theorem checkOperators_of_isQuiet {d : Definition} (h : d.isQuiet = true) :
    checkOperators d = .ok d := by
  simp only [isQuiet, List.all_eq_true, Bool.and_eq_true, Bool.not_eq_true'] at h
  have hdangling : hasDanglingPaste d.body = false := by
    simp only [hasDanglingPaste, Bool.or_eq_false_iff, Option.any_eq_false]
    exact ⟨fun t ht => (h t (List.mem_of_head? ht)).2,
      fun t ht => (h t (List.mem_of_getLast? ht)).2⟩
  have hstray : hasStrayStringize d d.body = false :=
    hasStrayStringize_of_all d fun t ht => (h t ht).1
  simp [checkOperators, hdangling, hstray]

end Definition

/-! ### The line of a definition as a directive -/

/-- What follows the keyword and a space is read as a definition. -/
theorem Directive.ofLine_define_eq (cs : List Char) :
    ofLine ("#define".toList ++ ' ' :: cs) =
      match Token.lexChars (' ' :: cs) with
      | .error e => .error e
      | .ok ts => (Definition.ofTokens ts).map fun d => some (.define d) := by
  have hstart : ofLine ("#define".toList ++ ' ' :: cs) =
      (ofText ("define".toList ++ ' ' :: cs)).map some := rfl
  -- The keyword ends where the space begins.
  have hkeyword : ("define".toList ++ ' ' :: cs).takeWhile Text.isNameChar = "define".toList := rfl
  have hrest : ("define".toList ++ ' ' :: cs).dropWhile Text.isNameChar = ' ' :: cs := rfl
  have htrim : Text.trimStart ("define".toList ++ ' ' :: cs) = "define".toList ++ ' ' :: cs := rfl
  rw [hstart, ofText, htrim, hkeyword, hrest, if_pos String.ofList_toList]
  cases Token.lexChars (' ' :: cs) with
  | error e => rfl
  | ok ts => cases h : Definition.ofTokens ts <;> simp [h, Except.map]

/-- **A written line is read as its definition.** -/
theorem Directive.ofLine_define {d : Definition} (h : d.Writable) (spacing : Header.Spacing) :
    ofLine ("#define".toList ++ Token.written (Header.Line.definitionTokens spacing d)) =
      .ok (some (.define d)) := by
  have hlex := Token.lexChars_written (Definition.legible_definitionTokens h spacing)
  have hread := Definition.ofTokens_definitionTokens h spacing
  obtain ⟨cs, hcs⟩ : ∃ cs, Token.written (Header.Line.definitionTokens spacing d) = ' ' :: cs := by
    refine ⟨d.name.toList ++ Token.written (Header.Line.parameterTokens spacing d ++
      Token.respace true d.body), ?_⟩
    rw [Header.Line.definitionTokens, Token.written_cons]
    rfl
  rw [hcs] at hlex ⊢
  rw [ofLine_define_eq, hlex]
  simp [hread, Except.map]

end VariadicMacros
