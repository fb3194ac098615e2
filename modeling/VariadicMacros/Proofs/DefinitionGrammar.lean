/-
**The grammar of macro definitions.**

A definition is a name and a replacement list, and between them there may be a parameter list in
parentheses of which the first directly follows the name.  The names of a parameter list are
different, stand between commas, and may be followed by an ellipsis; `__VA_ARGS__` is none of them.
The reader of definitions accepts what is of this form and applies its operators to something, and
of the faults of all other token lists it reports the first: the form, a `##` at an end, a `#` that
no parameter follows.

Main definitions:

* `VariadicMacros.Definition.parameterWords` — the words of a parameter list;
* `VariadicMacros.Definition.Declares` — the tokens that have the form of a definition;
* `VariadicMacros.Definition.PastesInside`, `VariadicMacros.Definition.StringizesParameters` —
  operators that have their operands.

Main results:

* `VariadicMacros.Definition.exists_of_readParameters`,
  `VariadicMacros.Definition.readParameters_of_words` — a parameter list is read exactly when its
  words are those of one;
* `VariadicMacros.Definition.readHead_eq_ok_iff`, `VariadicMacros.Definition.ofTokens_eq_ok_iff` —
  a definition is read exactly off the tokens that declare it;
* `VariadicMacros.Definition.ofTokens_grammar` — **every token list is accepted or refused as the
  grammar says**.
-/

import VariadicMacros.Definition.Reader
import VariadicMacros.Proofs.Words

set_option autoImplicit false

namespace VariadicMacros

namespace Token

theorem word_eq_mark {t : Token} {text : String} :
    t.word = Word.mark text ↔ t.isMark text = true := by
  simp [word, Word.mark, isMark_iff]

theorem word_eq_name {t : Token} {n : String} :
    t.word = Word.name n ↔ t.kind = .identifier ∧ t.text = n := by
  simp [word, Word.name]

end Token

open Token (word_eq_mark word_eq_name)

namespace Definition

/-! ### Parameter lists -/

/-- The words of a parameter list: the names and, where there is one, the ellipsis, with a comma
between every two. -/
def parameterWords (names : List String) (variadic : Bool) : List Word :=
  Word.list (names.map (fun n => [Word.name n]) ++ if variadic then [[Word.mark "..."]] else [])

/-- A name ends its list, or a comma follows it. -/
theorem parameterWords_cons (n : String) (names : List String) (variadic : Bool) :
    parameterWords (n :: names) variadic =
      Word.name n :: if names ≠ [] ∨ variadic = true then
        Word.mark "," :: parameterWords names variadic else [] := by
  cases names <;> cases variadic <;> simp [parameterWords]

/-- Every name of a parameter list is one of its words. -/
theorem name_mem_parameterWords {n : String} {names : List String} (h : n ∈ names)
    (variadic : Bool) : Word.name n ∈ parameterWords names variadic := by
  induction names with
  | nil => cases h
  | cons m names ih =>
      rw [parameterWords_cons]
      rcases List.mem_cons.1 h with rfl | h
      · exact List.mem_cons_self
      · rw [if_pos (.inl (List.ne_nil_of_mem h))]
        exact List.mem_cons_of_mem _ (List.mem_cons_of_mem _ (ih h))

section Parameters

variable {macroName : String} {seen : List String}

/-- A new parameter is taken, and what follows it decides how the list goes on. -/
theorem readParameters_identifier {n : String} (hn : n ≠ variadicName) (hseen : n ∉ seen)
    (spaced : Bool) (t : Token) (rest : List Token) :
    readParameters macroName seen (⟨.identifier, n, spaced⟩ :: t :: rest) =
      if t.isMark "," then readParameters macroName (n :: seen) rest
      else if t.isMark ")" then .ok ⟨(n :: seen).reverse, false, rest⟩
      else .error (.separatorExpected macroName) := by
  rw [readParameters.eq_def]
  simp [Token.isMark, hn, hseen]

/-- What is read as parameters is a parameter list and the parenthesis that closes it.  Its names
are new, and after names that were seen before it is not empty. -/
theorem exists_of_readParameters {tokens : List Token} {list : ParameterList}
    (h : readParameters macroName seen tokens = .ok list) :
    ∃ names inside close, list.names = seen.reverse ++ names ∧
      tokens = inside ++ close :: list.rest ∧ close.isMark ")" = true ∧
      inside.map Token.word = parameterWords names list.variadic ∧ names.Nodup ∧
      (∀ n ∈ names, n ∉ seen) ∧ variadicName ∉ names ∧
      (seen = [] ∨ names ≠ [] ∨ list.variadic = true) := by
  fun_induction readParameters macroName seen tokens with
  | case2 seen t rest hempty =>
      rw [Bool.and_eq_true, List.isEmpty_iff] at hempty
      cases h
      exact ⟨[], [], t, by simp [hempty.2], rfl, hempty.1, rfl, by simp, by simp, by simp,
        .inl hempty.2⟩
  | case3 seen t _ hdots close rest hclose =>
      cases h
      refine ⟨[], [t], close, by simp, rfl, hclose, ?_, by simp, by simp, by simp, by simp⟩
      simpa [parameterWords] using word_eq_mark.2 hdots
  | case7 seen t _ _ hname hnew next rest hcomma ih =>
      obtain ⟨names, inside, close, hlist, rfl, hclose, hinside, hnodup, hfurther, hnames, hne⟩ :=
        ih h
      have hmore : names ≠ [] ∨ list.variadic = true := by simpa using hne
      refine ⟨t.text :: names, t :: next :: inside, close, by simp [hlist], rfl, hclose, ?_, ?_, ?_,
        ?_, by simp⟩
      · rw [parameterWords_cons, if_pos hmore]
        simp [hinside, word_eq_name.2 ⟨hname.1, rfl⟩, word_eq_mark.2 hcomma]
      · exact List.nodup_cons.2 ⟨fun hmem => hfurther _ hmem List.mem_cons_self, hnodup⟩
      · refine List.forall_mem_cons.2 ⟨by simpa using hnew, fun n hn hmem => ?_⟩
        exact hfurther n hn (List.mem_cons_of_mem _ hmem)
      · simp [hnames, Ne.symm hname.2]
  | case8 seen t _ _ hname hnew next rest _ hclose =>
      cases h
      refine ⟨[t.text], [t], next, by simp, rfl, hclose, ?_, by simp, by simpa using hnew,
        by simpa using Ne.symm hname.2, by simp⟩
      simpa [parameterWords] using word_eq_name.2 ⟨hname.1, rfl⟩
  | _ => cases h

/-- A parameter list whose names are new is read up to the parenthesis that closes it. -/
theorem readParameters_of_words {names : List String} {variadic : Bool} {inside : List Token}
    {close : Token} (hinside : inside.map Token.word = parameterWords names variadic)
    (hclose : close.isMark ")" = true) (hnodup : names.Nodup) (hnew : ∀ n ∈ names, n ∉ seen)
    (hnames : variadicName ∉ names) (hne : seen = [] ∨ names ≠ [] ∨ variadic = true)
    (rest : List Token) :
    readParameters macroName seen (inside ++ close :: rest) =
      .ok ⟨seen.reverse ++ names, variadic, rest⟩ := by
  induction names generalizing seen inside with
  | nil =>
      cases variadic with
      | false =>
          obtain rfl : inside = [] := by simpa [parameterWords] using hinside
          obtain rfl : seen = [] := by simpa using hne
          rw [readParameters.eq_def]
          simp [hclose]
      | true =>
          obtain ⟨t, rfl, ht⟩ := List.map_eq_singleton_iff.1 (by simpa [parameterWords] using hinside)
          rw [word_eq_mark] at ht
          rw [readParameters.eq_def]
          simp [ht, hclose, Token.isMark_of_ne ht]
  | cons n names ih =>
      rw [parameterWords_cons, List.map_eq_cons_iff] at hinside
      obtain ⟨⟨_, n, spaced⟩, inside, rfl, ⟨⟩, hinside⟩ := hinside
      have hn : n ≠ variadicName := fun heq => hnames (heq ▸ List.mem_cons_self)
      have hseen : n ∉ seen := hnew n List.mem_cons_self
      split at hinside
      · next hmore =>
        rw [List.map_eq_cons_iff] at hinside
        obtain ⟨comma, inside, rfl, hcomma, hinside⟩ := hinside
        rw [word_eq_mark] at hcomma
        have hrest : ∀ m ∈ names, m ∉ n :: seen := by
          intro m hm hmem
          rcases List.mem_cons.1 hmem with rfl | hmem
          · exact (List.nodup_cons.1 hnodup).1 hm
          · exact hnew m (List.mem_cons_of_mem _ hm) hmem
        rw [List.cons_append, List.cons_append, readParameters_identifier hn hseen,
          if_pos hcomma, ih hinside hnodup.of_cons hrest
            (fun hmem => hnames (List.mem_cons_of_mem _ hmem)) (.inr hmore)]
        simp
      · next hlast =>
        rw [not_or, not_not, Bool.not_eq_true] at hlast
        obtain ⟨rfl, rfl⟩ := hlast
        obtain rfl : inside = [] := by simpa using hinside
        rw [List.singleton_append, readParameters_identifier hn hseen]
        simp [hclose, Token.isMark_of_ne hclose]

end Parameters

/-! ### The form of a definition -/

/-- The tokens that have the form of a definition: an identifier and a replacement list, or an
identifier, a parameter list in parentheses of which the first directly follows it, and a
replacement list.  The replacement list has no space before it. -/
inductive Declares : List Token → Definition → Prop
  | objectLike {t : Token} {body : List Token} (hname : t.kind = .identifier)
      (hbody : ∀ u ∈ body.head?, u.isMark "(" = true → u.spaced = true) :
      Declares (t :: body) ⟨t.text, none, false, Token.respace false body⟩
  | functionLike {t opening close : Token} {inside body : List Token} {names : List String}
      {variadic : Bool} (hname : t.kind = .identifier) (hopening : opening.isMark "(" = true)
      (hspaced : opening.spaced = false)
      (hinside : inside.map Token.word = parameterWords names variadic) (hnodup : names.Nodup)
      (hnames : variadicName ∉ names) (hclose : close.isMark ")" = true) :
      Declares (t :: opening :: (inside ++ close :: body))
        ⟨t.text, some names, variadic, Token.respace false body⟩

/-- **The head of a definition is read exactly off the tokens that declare it.** -/
theorem readHead_eq_ok_iff {tokens : List Token} {d : Definition} :
    readHead tokens = .ok d ↔ Declares tokens d := by
  constructor
  · intro h
    unfold readHead at h
    split at h
    · cases h
    · next t rest =>
      split at h
      · next hkind =>
        cases rest with
        | nil =>
            cases h
            exact .objectLike hkind (by simp)
        | cons next after =>
            simp only at h
            split at h
            · next hopening =>
              rw [Bool.and_eq_true, Bool.not_eq_true'] at hopening
              cases hlist : readParameters t.text [] after with
              | error fault =>
                  rw [hlist] at h
                  cases h
              | ok list =>
                  rw [hlist] at h
                  cases h
                  obtain ⟨names, inside, close, hread, rfl, hclose, hinside, hnodup, -, hnames, -⟩ :=
                    exists_of_readParameters hlist
                  rw [hread, List.reverse_nil, List.nil_append]
                  exact .functionLike hkind hopening.1 hopening.2 hinside hnodup hnames hclose
            · next hbody =>
              cases h
              exact .objectLike hkind (by simpa using hbody)
      · cases h
  · intro h
    cases h with
    | @objectLike t body hname hbody =>
        cases body with
        | nil => simp [readHead, hname]
        | cons next after =>
            have hopening : (next.isMark "(" && !next.spaced) = false := by simpa using hbody
            simp [readHead, hname, hopening]
    | functionLike hname hopening hspaced hinside hnodup hnames hclose =>
        simp only [readHead, hname, hopening, hspaced, Bool.not_false, Bool.and_self, if_true]
        rw [readParameters_of_words hinside hclose hnodup (by simp) hnames (.inl rfl)]
        rfl

/-! ### Operators and their operands -/

/-- A token that stands for a parameter, or for the arguments of the ellipsis. -/
def IsParameter (d : Definition) (t : Token) : Prop :=
  t.kind = .identifier ∧ ∃ names, d.parameters = some names ∧
    (t.text ∈ names ∨ d.variadic = true ∧ t.text = variadicName)

/-- A `##` stands at neither end of the replacement list. -/
def PastesInside (d : Definition) : Prop :=
  (∀ t ∈ d.body.head?, t.isMark "##" = false) ∧ ∀ t ∈ d.body.getLast?, t.isMark "##" = false

/-- In a function-like macro a parameter directly follows every `#`. -/
def StringizesParameters (d : Definition) : Prop :=
  d.isFunctionLike = true → ∀ (i : Nat) (t : Token), d.body[i]? = some t → t.isMark "#" = true →
    ∃ next, d.body[i + 1]? = some next ∧ d.IsParameter next

theorem isParameter_iff {d : Definition} {t : Token} :
    d.IsParameter t ↔ (d.parameterIndex? t).isSome = true := by
  unfold IsParameter parameterIndex?
  cases d.parameters with
  | none => simp
  | some names =>
      cases hindex : names.idxOf? t.text with
      | some i =>
          have hmem : t.text ∈ names := by
            by_contra hmem
            rw [List.idxOf?_eq_none_iff.2 hmem] at hindex
            cases hindex
          by_cases hkind : t.kind = .identifier <;> simp [hkind, hindex, hmem]
      | none =>
          have hmem : t.text ∉ names := List.idxOf?_eq_none_iff.1 hindex
          by_cases hkind : t.kind = .identifier <;> simp [hkind, hindex, hmem]

theorem pastesInside_iff {d : Definition} :
    d.PastesInside ↔ hasDanglingPaste d.body = false := by
  simp only [hasDanglingPaste, Bool.or_eq_false_iff, Option.any_eq_false]
  rfl

/-- No `#` is stray exactly when each has a parameter after it. -/
theorem hasStrayStringize_eq_false_iff {d : Definition} {body : List Token} :
    hasStrayStringize d body = false ↔ ∀ (i : Nat) (t : Token), body[i]? = some t →
      t.isMark "#" = true → ∃ next, body[i + 1]? = some next ∧ d.IsParameter next := by
  induction body with
  | nil => simp [hasStrayStringize]
  | cons t rest ih =>
      have hfirst : (t.isMark "#" && !rest.head?.any fun next => (d.parameterIndex? next).isSome) =
          false ↔ (t.isMark "#" = true → ∃ next, rest[0]? = some next ∧ d.IsParameter next) := by
        cases rest <;> simp [isParameter_iff]
      rw [hasStrayStringize]
      constructor
      · intro h i u hu hmark
        split at h
        · cases h
        · next hoperand =>
          cases i with
          | zero =>
              cases hu
              exact hfirst.1 (Bool.not_eq_true _ ▸ hoperand) hmark
          | succ i => exact ih.1 h i u hu hmark
      · intro h
        rw [if_neg]
        · exact ih.2 fun i => h (i + 1)
        · rw [Bool.not_eq_true]
          exact hfirst.2 (h 0 t rfl)

theorem stringizesParameters_iff {d : Definition} :
    d.StringizesParameters ↔ (d.isFunctionLike && hasStrayStringize d d.body) = false := by
  rw [StringizesParameters, ← hasStrayStringize_eq_false_iff]
  cases d.isFunctionLike <;> simp

/-- The check accepts a definition whose operators have their operands, and reports the first
fault of any other. -/
theorem checkOperators_cases (d : Definition) :
    (d.PastesInside ∧ d.StringizesParameters ∧ checkOperators d = .ok d) ∨
    (¬d.PastesInside ∧ checkOperators d = .error (.danglingPaste d.name)) ∨
    (d.PastesInside ∧ ¬d.StringizesParameters ∧
      checkOperators d = .error (.strayStringize d.name)) := by
  rw [pastesInside_iff, stringizesParameters_iff, checkOperators]
  cases hasDanglingPaste d.body <;> cases d.isFunctionLike && hasStrayStringize d d.body <;> simp

/-! ### Reading definitions -/

/-- **A definition is read exactly off the tokens that declare it**, if its operators have their
operands. -/
theorem ofTokens_eq_ok_iff {tokens : List Token} {d : Definition} :
    ofTokens tokens = .ok d ↔ Declares tokens d ∧ d.PastesInside ∧ d.StringizesParameters := by
  rw [← readHead_eq_ok_iff, ofTokens]
  cases readHead tokens with
  | error fault => simp
  | ok d' =>
      rcases checkOperators_cases d' with ⟨hpaste, hstringize, h⟩ | ⟨hpaste, h⟩ |
        ⟨hpaste, hstringize, h⟩
      all_goals
        simp only [h]
        grind

/-- **Every token list is accepted or refused as the grammar says.**  A definition is read off the
tokens that declare it if its operators have their operands.  The form is looked at first, then
the `##` at the ends, and the `#` last. -/
theorem ofTokens_grammar (tokens : List Token) :
    (∀ d, ofTokens tokens = .ok d ↔
      Declares tokens d ∧ d.PastesInside ∧ d.StringizesParameters) ∧
    ((∃ fault, ofTokens tokens = .error (.malformedDefinition fault)) ↔
      ¬∃ d, Declares tokens d) ∧
    (∀ name, ofTokens tokens = .error (.danglingPaste name) ↔
      ∃ d, Declares tokens d ∧ d.name = name ∧ ¬d.PastesInside) ∧
    (∀ name, ofTokens tokens = .error (.strayStringize name) ↔
      ∃ d, Declares tokens d ∧ d.name = name ∧ d.PastesInside ∧ ¬d.StringizesParameters) := by
  refine ⟨fun d => ofTokens_eq_ok_iff, ?_⟩
  simp only [← readHead_eq_ok_iff]
  cases hread : readHead tokens with
  | error fault => simp [ofTokens, hread]
  | ok d =>
      have hcheck : ofTokens tokens = checkOperators d := by rw [ofTokens, hread]
      rw [hcheck]
      rcases checkOperators_cases d with ⟨hpaste, hstringize, h⟩ | ⟨hpaste, h⟩ |
        ⟨hpaste, hstringize, h⟩
      · simp [h, hpaste, hstringize]
      · simp [h, hpaste]
      · simp [h, hpaste, hstringize]

end Definition

end VariadicMacros
