/-
**The options that are accepted, told by the lexer.**

Options are checked one by one: the guard has to be an identifier, and so has the stem unless it is
empty.  A header never holds the stem alone, but with an ending behind it.  The check is right
because it comes to the same as reading every name that the header is made of: the guard and the
stem with each of its endings have to be read as one identifier that takes up the whole text.

Main definitions:

* `VariadicMacros.Token.IsWholeName` — a text is read as one identifier, all of it;
* `VariadicMacros.Header.endings` — all that a header puts behind the stem.

Main results:

* `VariadicMacros.Token.isWholeName_iff` — these texts are the identifiers;
* `VariadicMacros.Header.forall_isWholeName_iff` — one ending tells whether all of them give
  identifiers;
* `VariadicMacros.Header.check_iff_isWholeName` — **the check agrees with the lexer**, and the
  error names the option whose names are not read so.
-/

import VariadicMacros.Proofs.MacroNames

set_option autoImplicit false

namespace VariadicMacros

/-! ### Whole names -/

/-- The text is read as one identifier that takes up all of it. -/
def Token.IsWholeName (text : String) : Prop :=
  ∃ t, lex text = .ok [t] ∧ t.kind = .identifier ∧ t.text = text

theorem Token.isWholeName_iff {text : String} :
    IsWholeName text ↔ Text.isIdentifier text.toList = true := by
  constructor
  · rintro ⟨t, hlex, hkind, htext⟩
    have hlexeme := (lex_eq_ok_iff.1 hlex).isLexeme_of_mem t List.mem_cons_self
    rwa [hkind, htext] at hlexeme
  · intro h
    exact ⟨name text, lex_identifier h, rfl, rfl⟩

/-- An identifier behind a text gives one exactly when the text is empty or an identifier. -/
theorem Text.isIdentifier_append_iff {a b : String} (hb : isIdentifier b.toList = true) :
    isIdentifier (a ++ b).toList = true ↔ a = "" ∨ isIdentifier a.toList = true := by
  constructor
  · intro h
    rw [String.toList_append] at h
    cases ha : a.toList with
    | nil => exact .inl (String.toList_eq_nil_iff.1 ha)
    | cons c cs =>
        rw [ha, List.cons_append, isIdentifier, List.all_append, Bool.and_eq_true,
          Bool.and_eq_true] at h
        refine .inr ?_
        rw [isIdentifier, h.1, h.2.1]
        rfl
  · rintro (rfl | ha)
    · rwa [String.empty_append]
    · exact isIdentifier_append ha (all_isNameChar_of_isIdentifier hb)

namespace Header

/-- All that a header puts behind the stem: the endings of its macros, and the beginnings of
numbered endings, which stand where a call pastes the number to them.  That the replacement lists
hold no other names with the stem is `cases_of_mem_identifiers`. -/
def endings (o : Options) : List String := suffixes o ++ dispatchStems

/-- Every ending is an identifier by itself. -/
theorem isIdentifier_of_mem_endings {o : Options} {s : String} (h : s ∈ endings o) :
    Text.isIdentifier s.toList = true := by
  have hstems : ∀ s ∈ dispatchStems, Text.isIdentifier s.toList = true := by decide
  have hplain : ∀ s ∈ plainSuffixes, Text.isIdentifier s.toList = true := by decide
  rcases List.mem_append.1 h with h | h
  · rcases mem_suffixes h with h | ⟨r, hr, h⟩
    · exact hplain s h
    · obtain ⟨n, -, rfl⟩ := List.mem_map.1 h
      exact Text.isIdentifier_append_toString (hstems _ (stem_mem_dispatchStems hr)) n
  · exact hstems s h

/-- **One ending tells whether all of them give identifiers.** -/
theorem forall_isWholeName_iff (o : Options) :
    (∀ s ∈ endings o, Token.IsWholeName (o.name s)) ↔
      o.stem = "" ∨ Text.isIdentifier o.stem.toList = true := by
  have hname : ∀ s ∈ endings o, Token.IsWholeName (o.name s) ↔
      o.stem = "" ∨ Text.isIdentifier o.stem.toList = true := fun s hs =>
    Token.isWholeName_iff.trans (Text.isIdentifier_append_iff (isIdentifier_of_mem_endings hs))
  have hempty : "EMPTY" ∈ endings o :=
    List.mem_append_left _ (plain_mem_suffixes (by decide) o)
  exact ⟨fun h => (hname _ hempty).1 (h _ hempty), fun h s hs => (hname s hs).2 h⟩

/-- **The check of the options agrees with the lexer.**  With a bound in its range, options are
accepted exactly when the guard and the stem with each of its endings are read as one identifier
that takes up the whole text.  When they are not, the error names the stem if it fails with some
ending, and the guard otherwise. -/
theorem check_iff_isWholeName {o : Options} (hpos : 1 ≤ o.bound) (hmost : o.bound ≤ maximalBound) :
    (o.check = .ok () ↔
        Token.IsWholeName o.guard ∧ ∀ s ∈ endings o, Token.IsWholeName (o.name s)) ∧
      (o.check = .error (.invalidIdentifier .stem o.stem) ↔
        ¬ ∀ s ∈ endings o, Token.IsWholeName (o.name s)) ∧
      (o.check = .error (.invalidIdentifier .guard o.guard) ↔
        (∀ s ∈ endings o, Token.IsWholeName (o.name s)) ∧ ¬ Token.IsWholeName o.guard) := by
  have hbound : ¬ (o.bound = 0 ∨ maximalBound < o.bound) := by omega
  rw [forall_isWholeName_iff, Token.isWholeName_iff, Options.check, if_neg hbound]
  by_cases hstem : o.stem = "" ∨ Text.isIdentifier o.stem.toList = true
  · have hfine : ¬ (o.stem ≠ "" ∧ Text.isIdentifier o.stem.toList = false) := by
      rintro ⟨hne, hnot⟩
      exact hstem.elim hne fun h => Bool.false_ne_true (hnot.symm.trans h)
    rw [if_neg hfine]
    cases Text.isIdentifier o.guard.toList <;> simp [hstem]
  · rw [not_or] at hstem
    rw [if_pos ⟨hstem.1, Bool.eq_false_iff.2 hstem.2⟩]
    simp [hstem]

/-- A stem that no header can use, and a guard that is not read to its end. -/
theorem check_iff_isWholeName_faulty :
    (1 ≤ 1024 ∧ 1024 ≤ maximalBound) ∧
      Options.check ⟨1024, "9X_", "é"⟩ = .error (.invalidIdentifier .stem "9X_") ∧
      (¬ ∀ s ∈ endings ⟨1024, "9X_", "é"⟩,
        Token.IsWholeName (Options.name ⟨1024, "9X_", "é"⟩ s)) ∧
      Options.check ⟨1024, "", "G H"⟩ = .error (.invalidIdentifier .guard "G H") ∧
      ¬ Token.IsWholeName "G H" := by
  have hpos : 1 ≤ 1024 := by decide
  have hmost : 1024 ≤ maximalBound := by decide
  have hstem : Options.check ⟨1024, "9X_", "é"⟩ = .error (.invalidIdentifier .stem "9X_") := by
    decide
  have hguard : Options.check ⟨1024, "", "G H"⟩ = .error (.invalidIdentifier .guard "G H") := by
    decide
  have h := check_iff_isWholeName (o := ⟨1024, "9X_", "é"⟩) hpos hmost
  have h' := check_iff_isWholeName (o := ⟨1024, "", "G H"⟩) hpos hmost
  exact ⟨⟨hpos, hmost⟩, hstem, h.2.1.1 hstem, hguard, (h'.2.2.1 hguard).2⟩

end Header

end VariadicMacros
