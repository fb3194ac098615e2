/-
**Words: what a token says, spaces and hide sets aside.**

What a text expands to is told by the kinds and the spellings of its tokens.  A word is a token
without its space mark, and calls are written with words: a name and its arguments in parentheses.
An argument is a list of words whose parentheses are balanced and that has no comma outside of
them.  The painted tokens of a scan show words, and all that has to be known about their hide sets
is a list of names that bounds them.

Main definitions:

* `VariadicMacros.Word`, with `Word.list`, `Word.parens` and `Word.call`;
* `VariadicMacros.Word.IsBalanced`, `VariadicMacros.Word.IsArgument`;
* `VariadicMacros.Painted.Shows` — painted tokens show words and hide only names of a list.

Main results:

* `VariadicMacros.Word.exists_arguments` — balanced words are a list of arguments;
* `VariadicMacros.Painted.Shows.exists_readArguments` — **the arguments of a call are read off the
  tokens that show it**.
-/

import Mathlib
import VariadicMacros.Invocation

set_option autoImplicit false

namespace VariadicMacros

/-- A token without its space mark. -/
structure Word where
  kind : Kind
  text : String
  deriving DecidableEq, Repr

/-- The word of a token. -/
def Token.word (t : Token) : Word := ⟨t.kind, t.text⟩

/-! ### Lists with a separator -/

section Intercalate

variable {α : Type} {sep : List α}

/-- A list is its first part and the others, each after the separator. -/
theorem intercalate_cons (sep part : List α) (parts : List (List α)) :
    sep.intercalate (part :: parts) = part ++ parts.flatMap (sep ++ ·) := by
  induction parts generalizing part with
  | nil => simp
  | cons next parts ih =>
      rw [List.intercalate_cons_cons, ih]
      simp

theorem intercalate_nil_eq_flatten (parts : List (List α)) :
    ([] : List α).intercalate parts = parts.flatten := by
  cases parts with
  | nil => rfl
  | cons part parts => simp [intercalate_cons, List.flatMap_def]

/-- What stands in a list stands in one of its parts or in the separator. -/
theorem mem_intercalate {a : α} {parts : List (List α)} (h : a ∈ sep.intercalate parts) :
    a ∈ sep ∨ ∃ part ∈ parts, a ∈ part := by
  cases parts with
  | nil => exact absurd h (by simp)
  | cons part parts =>
      rw [intercalate_cons, List.mem_append, List.mem_flatMap] at h
      rcases h with h | ⟨other, hother, h⟩
      · exact .inr ⟨part, by simp, h⟩
      · rcases List.mem_append.1 h with h | h
        · exact .inl h
        · exact .inr ⟨other, by simp [hother], h⟩

end Intercalate

namespace Word

/-! ### Calls -/

/-- An identifier. -/
def name (text : String) : Word := ⟨.identifier, text⟩

/-- A number. -/
def number (text : String) : Word := ⟨.number, text⟩

/-- A punctuator. -/
def mark (text : String) : Word := ⟨.punctuator, text⟩

/-- The parts one after the other, with a comma between every two. -/
def list (parts : List (List Word)) : List Word := [mark ","].intercalate parts

/-- Arguments in parentheses. -/
def parens (arguments : List (List Word)) : List Word :=
  mark "(" :: (list arguments ++ [mark ")"])

/-- A call of a macro. -/
def call (f : String) (arguments : List (List Word)) : List Word := name f :: parens arguments

@[simp] theorem list_nil : list [] = [] := rfl

@[simp] theorem list_singleton (a : List Word) : list [a] = a := List.intercalate_singleton

@[simp] theorem list_cons_cons (a b : List Word) (parts : List (List Word)) :
    list (a :: b :: parts) = a ++ mark "," :: list (b :: parts) := by
  rw [list, List.intercalate_cons_cons, List.append_assoc]
  rfl

/-- A list at the end of a list is a list. -/
theorem list_append_list (parts : List (List Word)) {rest : List (List Word)} (h : rest ≠ []) :
    list (parts ++ [list rest]) = list (parts ++ rest) := by
  obtain ⟨r, rest, rfl⟩ := List.exists_cons_of_ne_nil h
  induction parts with
  | nil => simp
  | cons a parts ih =>
      cases parts with
      | nil => simp
      | cons b parts => simpa using ih

/-- A list at the start of a list is a list. -/
theorem list_list_append {parts : List (List Word)} (h : parts ≠ []) (rest : List (List Word)) :
    list (list parts :: rest) = list (parts ++ rest) := by
  induction parts with
  | nil => exact absurd rfl h
  | cons a parts ih =>
      cases parts with
      | nil => simp
      | cons b parts =>
          have hparts := ih (by simp)
          cases rest with
          | nil => simp
          | cons c rest => simpa using hparts

theorem parens_append_list (parts : List (List Word)) {rest : List (List Word)} (h : rest ≠ []) :
    parens (parts ++ [list rest]) = parens (parts ++ rest) := by
  rw [parens, list_append_list parts h]
  rfl

/-- The last arguments of a call may be written as one list. -/
theorem call_append_list (f : String) (parts : List (List Word)) {rest : List (List Word)}
    (h : rest ≠ []) : call f (parts ++ [list rest]) = call f (parts ++ rest) :=
  congrArg (List.cons _) (parens_append_list parts h)

/-- The first arguments of a call may be written as one list. -/
theorem call_list_append (f : String) {parts : List (List Word)} (h : parts ≠ [])
    (rest : List (List Word)) : call f (list parts :: rest) = call f (parts ++ rest) := by
  rw [call, parens, list_list_append h]
  rfl

/-- A list of arguments is a list of at least one argument, which is empty if there was none. -/
theorem exists_ne_nil {P : List Word → Prop} (hempty : P []) {parts : List (List Word)}
    (h : ∀ a ∈ parts, P a) :
    ∃ parts', parts' ≠ [] ∧ list parts' = list parts ∧ ∀ a ∈ parts', P a := by
  cases parts with
  | nil => exact ⟨[[]], by simp, rfl, by simpa using hempty⟩
  | cons a parts => exact ⟨a :: parts, by simp, rfl, h⟩

/-! ### Balanced words and arguments -/

/-- Whether words that stand `nesting` parentheses deep close all of these and whatever they open,
and have a comma outside of parentheses only where `commas` allows it. -/
def closes (commas : Bool) : Nat → List Word → Bool
  | nesting, [] => nesting == 0
  | nesting, w :: ws =>
    if w = mark "(" then closes commas (nesting + 1) ws
    else if w = mark ")" then nesting != 0 && closes commas (nesting - 1) ws
    else (commas || nesting != 0 || w != mark ",") && closes commas nesting ws

/-- Every parenthesis has its partner. -/
def IsBalanced (ws : List Word) : Prop := closes true 0 ws = true

/-- Every parenthesis has its partner and every comma stands inside of parentheses. -/
def IsArgument (ws : List Word) : Prop := closes false 0 ws = true

instance (ws : List Word) : Decidable (IsBalanced ws) := inferInstanceAs (Decidable (_ = true))

instance (ws : List Word) : Decidable (IsArgument ws) := inferInstanceAs (Decidable (_ = true))

/-- What closes its parentheses does not count for what follows. -/
theorem closes_append {ws : List Word} {inner : Nat} (h : closes false inner ws = true)
    (nesting : Nat) (rest : List Word) :
    closes false (nesting + inner) (ws ++ rest) = closes false nesting rest := by
  -- The words close what is open on the inside, so `inner` follows their parentheses.
  induction ws generalizing inner with
  | nil =>
      have hinner : inner = 0 := by simpa [closes] using h
      simp [hinner]
  | cons w ws ih =>
      rw [closes] at h
      rw [List.cons_append, closes]
      split at h
      · next hw =>
        rw [if_pos hw]
        exact ih h
      · next hw =>
        rw [if_neg hw]
        split at h
        · next hw' =>
          rw [if_pos hw']
          simp only [Bool.and_eq_true, bne_iff_ne] at h
          obtain ⟨inner, rfl⟩ := Nat.exists_eq_succ_of_ne_zero h.1
          rw [← ih h.2]
          simp
        · next hw' =>
          simp only [Bool.false_or, Bool.and_eq_true, Bool.or_eq_true, bne_iff_ne] at h
          have hcomma : (false || nesting + inner != 0 || w != mark ",") = true := by
            rw [Bool.false_or, Bool.or_eq_true, bne_iff_ne, bne_iff_ne]
            exact h.1.imp (by omega) id
          rw [if_neg hw', hcomma, Bool.true_and, ih h.2]

/-- A list of arguments ends with the parenthesis after it. -/
theorem closes_list {arguments : List (List Word)} (h : ∀ a ∈ arguments, IsArgument a)
    (nesting : Nat) (rest : List Word) :
    closes false (nesting + 1) (list arguments ++ mark ")" :: rest) =
      closes false nesting rest := by
  have hclose : ∀ ws, closes false (nesting + 1) (mark ")" :: ws) = closes false nesting ws := by
    intro ws
    rw [closes, if_neg (by decide), if_pos rfl]
    simp
  have hcomma : ∀ ws, closes false (nesting + 1) (mark "," :: ws) =
      closes false (nesting + 1) ws := by
    intro ws
    rw [closes, if_neg (by decide), if_neg (by decide)]
    simp
  induction arguments with
  | nil => exact hclose rest
  | cons a arguments ih =>
      have ha := h a (by simp)
      cases arguments with
      | nil =>
          rw [list_singleton, closes_append ha (nesting + 1), hclose]
      | cons b arguments =>
          rw [list_cons_cons, List.append_assoc, closes_append ha (nesting + 1), List.cons_append,
            hcomma]
          exact ih fun c hc => h c (by simp [hc])

theorem IsArgument.append {ws vs : List Word} (h : IsArgument ws) (h' : IsArgument vs) :
    IsArgument (ws ++ vs) := by
  rw [IsArgument, closes_append h 0]
  exact h'

theorem isArgument_parens {arguments : List (List Word)} (h : ∀ a ∈ arguments, IsArgument a) :
    IsArgument (parens arguments) := by
  rw [IsArgument, parens, closes, if_pos rfl, closes_list h]
  rfl

/-- A call is an argument. -/
theorem isArgument_call (f : String) {arguments : List (List Word)}
    (h : ∀ a ∈ arguments, IsArgument a) : IsArgument (call f arguments) := by
  have hf : IsArgument [name f] := by
    simp [IsArgument, closes, name, mark]
  exact hf.append (isArgument_parens h)

theorem isArgument_name (text : String) : IsArgument [name text] := by
  simp [IsArgument, closes, name, mark]

theorem isArgument_number (text : String) : IsArgument [number text] := by
  simp [IsArgument, closes, number, mark]

/-- Words that close their parentheses are a list, of which only the first part stands inside of
the parentheses that are already open. -/
theorem exists_list_of_closes {ws : List Word} {nesting : Nat} (h : closes true nesting ws = true) :
    ∃ first rest, list (first :: rest) = ws ∧ closes false nesting first = true ∧
      ∀ a ∈ rest, IsArgument a := by
  induction ws generalizing nesting with
  | nil => exact ⟨[], [], rfl, h, by simp⟩
  | cons w ws ih =>
      have hcons : ∀ (first : List Word) (rest : List (List Word)),
          list ((w :: first) :: rest) = w :: list (first :: rest) := by
        intro first rest
        cases rest <;> simp
      rw [closes] at h
      split at h
      · next hw =>
        obtain ⟨first, rest, hlist, hfirst, hrest⟩ := ih h
        refine ⟨w :: first, rest, by rw [hcons, hlist], ?_, hrest⟩
        rw [closes, if_pos hw, hfirst]
      · next hw =>
        split at h
        · next hw' =>
          rw [Bool.and_eq_true] at h
          obtain ⟨first, rest, hlist, hfirst, hrest⟩ := ih h.2
          refine ⟨w :: first, rest, by rw [hcons, hlist], ?_, hrest⟩
          rw [closes, if_neg hw, if_pos hw', hfirst, h.1]
          rfl
        · next hw' =>
          rw [Bool.true_or, Bool.true_or, Bool.true_and] at h
          obtain ⟨first, rest, hlist, hfirst, hrest⟩ := ih h
          -- Only a comma outside of all parentheses ends a part.
          by_cases hcomma : nesting = 0 ∧ w = mark ","
          · obtain ⟨rfl, rfl⟩ := hcomma
            refine ⟨[], first :: rest, by rw [list_cons_cons, hlist]; rfl, rfl, ?_⟩
            exact List.forall_mem_cons.2 ⟨hfirst, hrest⟩
          · refine ⟨w :: first, rest, by rw [hcons, hlist], ?_, hrest⟩
            rw [closes, if_neg hw, if_neg hw', hfirst]
            by_cases hnesting : nesting = 0
            · simp [hnesting, show w ≠ mark "," from fun heq => hcomma ⟨hnesting, heq⟩]
            · simp [hnesting]

/-- Balanced words are a list of arguments. -/
theorem exists_arguments {ws : List Word} (h : IsBalanced ws) :
    ∃ arguments, arguments ≠ [] ∧ list arguments = ws ∧ ∀ a ∈ arguments, IsArgument a := by
  obtain ⟨first, rest, hlist, hfirst, hrest⟩ := exists_list_of_closes h
  exact ⟨first :: rest, by simp, hlist, List.forall_mem_cons.2 ⟨hfirst, hrest⟩⟩

end Word

/-! ### Painted tokens that show words -/

namespace Painted

/-- The word of a painted token. -/
def word (p : Painted) : Word := p.toToken.word

theorem isMark_eq (p : Painted) (text : String) : p.isMark text = decide (p.word = .mark text) := by
  rw [Bool.eq_iff_iff, Token.isMark_iff, decide_eq_true_eq]
  simp [word, Token.word, Word.mark]

/-- The tokens show the words and hide only names of a list. -/
structure Shows (hidden : List String) (ps : List Painted) (ws : List Word) : Prop where
  words : ps.map word = ws
  hidden : ∀ p ∈ ps, p.hidden ⊆ hidden

namespace Shows

variable {hidden : List String} {ps qs : List Painted} {ws vs : List Word}

theorem nil : Shows hidden [] [] := ⟨rfl, by simp⟩

theorem cons {p : Painted} (hp : p.hidden ⊆ hidden) (h : Shows hidden ps ws) :
    Shows hidden (p :: ps) (p.word :: ws) :=
  ⟨by simp [h.words], by simpa [hp] using h.hidden⟩

theorem append (h : Shows hidden ps ws) (h' : Shows hidden qs vs) :
    Shows hidden (ps ++ qs) (ws ++ vs) :=
  ⟨by simp [h.words, h'.words], by
    intro p hp
    rcases List.mem_append.1 hp with hp | hp
    · exact h.hidden p hp
    · exact h'.hidden p hp⟩

theorem eq_nil (h : Shows hidden ps []) : ps = [] := List.map_eq_nil_iff.1 h.words

/-- The first token shows the first word. -/
theorem exists_cons {w : Word} (h : Shows hidden ps (w :: ws)) :
    ∃ p qs, ps = p :: qs ∧ p.word = w ∧ p.hidden ⊆ hidden ∧ Shows hidden qs ws := by
  obtain ⟨p, qs, rfl, hp, hqs⟩ := List.map_eq_cons_iff.1 h.words
  exact ⟨p, qs, rfl, hp, h.hidden p (by simp), hqs, fun q hq => h.hidden q (by simp [hq])⟩

theorem exists_singleton {w : Word} (h : Shows hidden ps [w]) :
    ∃ p, ps = [p] ∧ p.word = w ∧ p.hidden ⊆ hidden := by
  obtain ⟨p, qs, rfl, hp, hhidden, hqs⟩ := h.exists_cons
  obtain rfl := hqs.eq_nil
  exact ⟨p, rfl, hp, hhidden⟩

/-- The tokens of two word lists are two token lists. -/
theorem exists_append (h : Shows hidden ps (ws ++ vs)) :
    ∃ as bs, ps = as ++ bs ∧ Shows hidden as ws ∧ Shows hidden bs vs := by
  obtain ⟨as, bs, rfl, has, hbs⟩ := List.map_eq_append_iff.1 h.words
  exact ⟨as, bs, rfl, ⟨has, fun p hp => h.hidden p (by simp [hp])⟩,
    hbs, fun p hp => h.hidden p (by simp [hp])⟩

theorem mono {hidden' : List String} (h : Shows hidden ps ws) (hsub : hidden ⊆ hidden') :
    Shows hidden' ps ws :=
  ⟨h.words, fun p hp => List.Subset.trans (h.hidden p hp) hsub⟩

theorem respace (h : Shows hidden ps ws) (b : Bool) : Shows hidden (Painted.respace b ps) ws := by
  cases ps with
  | nil => exact h
  | cons p ps => exact ⟨h.words, by simpa [Painted.respace] using h.hidden⟩

/-- Hiding names of the list from the tokens. -/
theorem map_hide {names : HideSet} (h : Shows hidden ps ws) (hnames : names ⊆ hidden) :
    Shows hidden (ps.map (hide names)) ws := by
  refine ⟨?_, ?_⟩
  · rw [← h.words, List.map_map]
    rfl
  · intro q hq n hn
    obtain ⟨p, hp, rfl⟩ := List.mem_map.1 hq
    rcases mem_hidden_hide.1 hn with hn | hn
    · exact h.hidden p hp hn
    · exact hnames hn

theorem plain (ts : List Token) : Shows [] (ts.map Painted.plain) (ts.map Token.word) :=
  ⟨by rw [List.map_map]; rfl, by simp [Painted.plain]⟩

end Shows

end Painted

/-! ### Reading arguments -/

namespace Invocation

open Painted (Shows)

variable {hidden : List String}

/-- Words that close their parentheses are added to the argument that is being read. -/
theorem readFrom_append {ps : List Painted} {ws : List Word} (h : Shows hidden ps ws)
    {nesting : Nat} (hcloses : Word.closes false nesting ws = true) (current : List Painted)
    (done : List (List Painted)) (rest : List Painted) :
    readFrom nesting current done (ps ++ rest) = readFrom 0 (ps.reverse ++ current) done rest := by
  induction ps generalizing ws nesting current with
  | nil =>
      have hnesting : nesting = 0 := by
        rw [← h.words] at hcloses
        simpa [Word.closes] using hcloses
      simp [hnesting]
  | cons p ps ih =>
      have hwords := h.words
      rw [List.map_cons] at hwords
      subst hwords
      have hps : Shows hidden ps (ps.map Painted.word) :=
        ⟨rfl, fun q hq => h.hidden q (by simp [hq])⟩
      rw [Word.closes] at hcloses
      rw [List.cons_append, readFrom.eq_def]
      simp only [Painted.isMark_eq, decide_eq_true_eq, Bool.and_eq_true, beq_iff_eq]
      split at hcloses
      · next hp =>
        rw [if_pos hp, ih hps hcloses]
        simp
      · next hp =>
        rw [if_neg hp]
        split at hcloses
        · next hp' =>
          rw [if_pos hp']
          simp only [Bool.and_eq_true, bne_iff_ne] at hcloses
          obtain ⟨nesting, rfl⟩ := Nat.exists_eq_succ_of_ne_zero hcloses.1
          have hrest := ih hps hcloses.2 (p :: current)
          rw [Nat.succ_sub_one] at hrest
          simp [hrest]
        · next hp' =>
          simp only [Bool.false_or, Bool.and_eq_true, Bool.or_eq_true, bne_iff_ne] at hcloses
          -- A comma that would end the argument does not stand outside of parentheses.
          have hcomma : ¬ (p.word = Word.mark "," ∧ nesting = 0) := fun hand =>
            hcloses.1.elim (fun hne => hne hand.2) fun hne => hne hand.1
          rw [if_neg hp', if_neg hcomma, ih hps hcloses.2]
          simp

/-- The arguments are read one after the other up to the closing parenthesis. -/
theorem exists_readFrom {arguments : List (List Word)} (hne : arguments ≠ [])
    (hargument : ∀ a ∈ arguments, Word.IsArgument a) {ps : List Painted}
    (h : Shows hidden ps (Word.list arguments ++ [.mark ")"])) (done : List (List Painted)) :
    ∃ (actuals : List (List Painted)) (close : Painted),
      List.Forall₂ (Shows hidden) actuals arguments ∧ close.hidden ⊆ hidden ∧
      ∀ rest, readFrom 0 [] done (ps ++ rest) =
        some ⟨done.reverse ++ actuals, close, rest⟩ := by
  induction arguments generalizing ps done with
  | nil => exact absurd rfl hne
  | cons a arguments ih =>
      have ha := hargument a (by simp)
      cases arguments with
      | nil =>
          rw [Word.list_singleton] at h
          obtain ⟨as, bs, rfl, has, hbs⟩ := h.exists_append
          obtain ⟨close, bs, rfl, hclose, hhidden, hbs⟩ := hbs.exists_cons
          obtain rfl := hbs.eq_nil
          refine ⟨[as], close, .cons has .nil, hhidden, fun rest => ?_⟩
          have hmark : ∀ text, close.isMark text = decide (Word.mark ")" = .mark text) := by
            intro text
            rw [Painted.isMark_eq, hclose]
          rw [List.append_assoc, readFrom_append has ha, List.singleton_append, readFrom, hmark,
            hmark, if_neg (by decide), if_pos (by decide)]
          simp
      | cons b arguments =>
          rw [Word.list_cons_cons, List.append_assoc] at h
          obtain ⟨as, bs, rfl, has, hbs⟩ := h.exists_append
          obtain ⟨comma, bs, rfl, hcomma, -, hbs⟩ := hbs.exists_cons
          obtain ⟨actuals, close, hactuals, hhidden, hread⟩ :=
            ih (by simp) (fun c hc => hargument c (by simp [hc])) hbs (as :: done)
          refine ⟨as :: actuals, close, .cons has hactuals, hhidden, fun rest => ?_⟩
          have hmark : ∀ text, comma.isMark text = decide (Word.mark "," = .mark text) := by
            intro text
            rw [Painted.isMark_eq, hcomma]
          rw [List.append_assoc, readFrom_append has ha, List.cons_append, readFrom, hmark, hmark,
            hmark, if_neg (by decide), if_neg (by decide), if_pos (by decide)]
          simpa using hread rest

/-- **The arguments of a call are read off the tokens that show it.** -/
theorem exists_readArguments {arguments : List (List Word)} (hne : arguments ≠ [])
    (hargument : ∀ a ∈ arguments, Word.IsArgument a) {ps : List Painted}
    (h : Shows hidden ps (Word.list arguments ++ [.mark ")"])) :
    ∃ (actuals : List (List Painted)) (close : Painted),
      List.Forall₂ (Shows hidden) actuals arguments ∧ close.hidden ⊆ hidden ∧
      ∀ rest, readArguments (ps ++ rest) = some ⟨actuals, close, rest⟩ := by
  simpa [readArguments] using exists_readFrom hne hargument h []

/-- Arguments that are written one after the other show a list. -/
theorem shows_written {actuals : List (List Painted)} {arguments : List (List Word)}
    (h : List.Forall₂ (Shows hidden) actuals arguments) :
    Shows hidden (written actuals) (Word.list arguments) := by
  induction h with
  | nil => exact .nil
  | @cons a w actuals arguments ha hactuals ih =>
      cases hactuals with
      | nil => simpa using ha
      | @cons b v actuals arguments hb hactuals =>
          have hwritten : written (a :: b :: actuals) = a ++ comma :: written (b :: actuals) := rfl
          rw [hwritten, Word.list_cons_cons]
          exact ha.append (ih.cons (p := comma) (by simp [comma]))

end Invocation

end VariadicMacros
