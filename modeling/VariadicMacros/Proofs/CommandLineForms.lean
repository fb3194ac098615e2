/-
**The two written forms of a definition agree.**

`NAME=BODY` of a command line and the line `#define NAME BODY` of a source are cut in different
ways: the one at its first equals sign, the other at its keyword, after its continued lines and its
comments are gone.  A line that has neither is read as the command line's text with a space in
front, so it makes the same definition or has the same fault, one byte later if the fault has a
place.

Main definitions:

* `VariadicMacros.Definition.directiveLine` — the line that defines a head as a body;
* `VariadicMacros.Source.IsPlainLine` — a line without comments that is not continued.

Main results:

* `VariadicMacros.Definition.ofCommandLine_append_equals` — the equals sign is read as a space;
* `VariadicMacros.Definition.ofTokens_respace` — the space in front of a name is not looked at;
* `VariadicMacros.MacroTable.load_directiveLine` — **the two forms agree**.
-/

import VariadicMacros.Proofs.MovedErrors
import VariadicMacros.Proofs.RepeatedLoads
import VariadicMacros.Proofs.WrittenDefinition

set_option autoImplicit false

namespace VariadicMacros

namespace Definition

/-- The line that defines a head, a name with or without parameters, as a body. -/
def directiveLine (head body : String) : String := "#define " ++ head ++ " " ++ body

theorem toList_directiveLine (head body : String) :
    (directiveLine head body).toList =
      "#define".toList ++ ' ' :: (head.toList ++ ' ' :: body.toList) := by
  simp [directiveLine]

/-! ### What is not looked at -/

theorem splitAtEquals_append_cons {head : List Char} (h : '=' ∉ head) (body : List Char) :
    splitAtEquals (head ++ '=' :: body) = (head, some body) := by
  have hhead : ∀ c ∈ head, (c != '=') = true := by
    intro c hc
    rw [bne_iff_ne]
    rintro rfl
    exact h hc
  rw [splitAtEquals, List.dropWhile_append_of_pos hhead, List.takeWhile_append_of_pos hhead]
  simp

theorem directiveText_append_equals {head : List Char} (h : '=' ∉ head) (body : List Char) :
    directiveText (head ++ '=' :: body) = head ++ ' ' :: body := by
  simp only [directiveText, splitAtEquals_append_cons h]

/-- **The first equals sign is read as a space.** -/
theorem ofCommandLine_append_equals {head : String} (h : '=' ∉ head.toList) (body : String) :
    ofCommandLine (head ++ "=" ++ body) =
      match Token.lexChars (head.toList ++ ' ' :: body.toList) with
      | .error e => .error e
      | .ok ts => ofTokens ts := by
  have htext : (head ++ "=" ++ body).toList = head.toList ++ '=' :: body.toList := by simp
  have hform : directiveText (head ++ "=" ++ body).toList = head.toList ++ ' ' :: body.toList := by
    rw [htext, directiveText_append_equals h]
  cases hlex : Token.lexChars (head.toList ++ ' ' :: body.toList) <;>
    simp only [ofCommandLine, hform, hlex]

/-- The space in front of a name is not looked at. -/
theorem ofTokens_respace (spaced : Bool) (ts : List Token) :
    ofTokens (Token.respace spaced ts) = ofTokens ts := by
  cases ts <;> rfl

/-- The faults of tokens have no place. -/
theorem moved_of_ofTokens {ts : List Token} {e : MacroError} (h : ofTokens ts = .error e)
    (k : Nat) : e.moved k = e := by
  unfold ofTokens at h
  split at h
  · cases h
    rfl
  · unfold checkOperators at h
    split at h
    · cases h
      rfl
    · split at h
      · cases h
        rfl
      · cases h

/-- A directive is read like the definition of a command line. -/
theorem ofLine_directiveLine {head : String} (h : '=' ∉ head.toList) (body : String) :
    Directive.ofLine (directiveLine head body).toList =
      match ofCommandLine (head ++ "=" ++ body) with
      | .error e => .error (e.moved 1)
      | .ok d => .ok (some (.define d)) := by
  rw [toList_directiveLine, Directive.ofLine_define_eq, Token.lexChars_space_cons,
    ofCommandLine_append_equals h]
  cases Token.lexChars (head.toList ++ ' ' :: body.toList) with
  | error e => rfl
  | ok ts =>
      simp only [ofTokens_respace]
      cases hread : ofTokens ts with
      | error e => simp only [Except.map, moved_of_ofTokens hread]
      | ok d => rfl

end Definition

/-! ### A line on its own -/

/-- A line that is left as it is when continued lines are joined and comments are replaced. -/
def Source.IsPlainLine (cs : List Char) : Prop :=
  '\n' ∉ cs ∧ splice cs = cs ∧ stripComments cs = .ok cs

instance (cs : List Char) : Decidable (Source.IsPlainLine cs) :=
  inferInstanceAs (Decidable (_ ∧ _ ∧ _))

/-- A source that is such a line is read as the line. -/
theorem Source.Reading.ofSource_of_isPlainLine {line : String} (h : Source.IsPlainLine line.toList)
    (hne : line.toList ≠ []) : ofSource line = ofLines [line.toList] := by
  obtain ⟨hfeed, hsplice, hstrip⟩ := h
  have hlines : Source.lines line.toList = [line.toList] := by
    have happ := Source.linesFrom_append hfeed [] [] []
    rw [List.append_nil, List.append_nil] at happ
    rw [Source.lines, happ, Source.linesFrom, if_neg (by simpa using hne)]
    simp
  rw [ofSource, Source.cleanLines, hsplice, hstrip, Except.map, hlines]

namespace MacroTable

/-- **The two forms agree.**  Let the line that defines a head without an equals sign as a body be
left as it is when continued lines are joined and comments are replaced.  Loading the line and
giving the definition on a command line both make the same definition, or both have the same error
and change nothing; the byte offset of the error, if it has one, is one larger in the line. -/
theorem load_directiveLine (table : MacroTable) {head body : String} (hhead : '=' ∉ head.toList)
    (hline : Source.IsPlainLine (Definition.directiveLine head body).toList) :
    (∃ d, (table.load (Definition.directiveLine head body)).result = .ok 1 ∧
      (table.defineFrom (head ++ "=" ++ body)).result = .ok 1 ∧
      (table.load (Definition.directiveLine head body)).table = table.define d ∧
      (table.defineFrom (head ++ "=" ++ body)).table = table.define d) ∨
    ∃ e, (table.load (Definition.directiveLine head body)).result = .error (e.moved 1) ∧
      (table.defineFrom (head ++ "=" ++ body)).result = .error e ∧
      (table.load (Definition.directiveLine head body)).table = table ∧
      (table.defineFrom (head ++ "=" ++ body)).table = table := by
  have hne : (Definition.directiveLine head body).toList ≠ [] := by
    simp [Definition.toList_directiveLine]
  obtain ⟨htable, hresult⟩ := load_eq_read table (Definition.directiveLine head body)
  rw [Source.Reading.ofSource_of_isPlainLine hline hne, Source.Reading.ofLines,
    Definition.ofLine_directiveLine hhead] at htable hresult
  rw [htable, hresult, defineFrom]
  cases Definition.ofCommandLine (head ++ "=" ++ body) with
  | ok d => exact .inl ⟨d, rfl, rfl, rfl, rfl⟩
  | error e => exact .inr ⟨e, rfl, rfl, rfl, rfl⟩

/-- A definition with parameters, an equals sign in its body and comment signs in a literal; and one
with a character that begins no token. -/
theorem load_directiveLine_of_parameters :
    ∃ head body faulty : String,
      head = "TEXT(x, ...)" ∧ body = "x == #x \"/* // */\" __VA_ARGS__" ∧ faulty = "x @" ∧
      (MacroTable.empty.load (Definition.directiveLine head body)).result = .ok 1 ∧
      (MacroTable.empty.load (Definition.directiveLine head body)).table =
        (MacroTable.empty.defineFrom (head ++ "=" ++ body)).table ∧
      (MacroTable.empty.defineFrom (head ++ "=" ++ faulty)).result =
        .error (.unexpectedCharacter '@' 15) ∧
      (MacroTable.empty.load (Definition.directiveLine head faulty)).result =
        .error (.unexpectedCharacter '@' 16) := by
  refine ⟨_, _, _, rfl, rfl, rfl, ?_⟩
  generalize hhead : "TEXT(x, ...)" = head
  generalize hbody : "x == #x \"/* // */\" __VA_ARGS__" = body
  generalize hfaulty : "x @" = faulty
  have hequals : '=' ∉ head.toList := by
    rw [← hhead]
    decide
  have hlines : Source.IsPlainLine (Definition.directiveLine head body).toList ∧
      Source.IsPlainLine (Definition.directiveLine head faulty).toList := by
    rw [← hhead, ← hbody, ← hfaulty]
    decide +kernel
  have hread : (MacroTable.empty.defineFrom (head ++ "=" ++ body)).result = .ok 1 := by
    rw [← hhead, ← hbody]
    decide +kernel
  have hfault : (MacroTable.empty.defineFrom (head ++ "=" ++ faulty)).result =
      .error (.unexpectedCharacter '@' 15) := by
    rw [← hhead, ← hfaulty]
    decide +kernel
  rcases load_directiveLine .empty hequals hlines.1 with
    ⟨d, hload, -, htable, htable'⟩ | ⟨e, -, herror, -⟩
  · rcases load_directiveLine .empty hequals hlines.2 with
      ⟨d', -, hok, -⟩ | ⟨e', hload', herror', -⟩
    · rw [hfault] at hok
      cases hok
    · rw [hfault] at herror'
      cases herror'
      exact ⟨hload, htable.trans htable'.symm, hfault, hload'⟩
  · rw [hread] at herror
    cases herror

end MacroTable

end VariadicMacros
