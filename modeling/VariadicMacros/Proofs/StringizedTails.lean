/-
**The spelling of the arguments of an ellipsis.**

The arguments that an ellipsis receives are taken apart at the commas and put together again with
commas of their own, before which there is no space.  All other tokens come back as they are.  So
the literal that `#` makes of the ellipsis gives the spelling of the text of the call but for the
spaces before commas that separate arguments; a comma inside of parentheses keeps its space, and
so does every comma in the argument of a named parameter.

Main definitions:

* `VariadicMacros.Token.tighten` — no space before the commas outside of parentheses.

Main results:

* `VariadicMacros.Invocation.Writes.map_toToken_intercalate` — what is left when arguments are taken
  apart and put together again;
* `VariadicMacros.Token.spell_tighten_eq_iff` — when this can be seen in the spelling;
* `VariadicMacros.MacroTable.exists_expand_stringizedTail` — **the literal of an ellipsis gives the
  spelling of the arguments without the spaces before their commas**.
-/

import VariadicMacros.Proofs.StringizedArguments
import VariadicMacros.Proofs.WrittenCalls

set_option autoImplicit false

namespace VariadicMacros

open Text (isIdentifier)

namespace Token

/-! ### Commas without spaces -/

/-- Takes the spaces away before all commas outside of parentheses, of which `nesting` are open. -/
def tighten : Nat → List Token → List Token
  | _, [] => []
  | nesting, t :: ts =>
    if t.isMark "(" then t :: tighten (nesting + 1) ts
    else if t.isMark ")" then t :: tighten (nesting - 1) ts
    else if t.isMark "," && nesting == 0 then { t with spaced := false } :: tighten nesting ts
    else t :: tighten nesting ts

/-- Only spaces are taken away. -/
theorem map_word_tighten (nesting : Nat) (ts : List Token) :
    (tighten nesting ts).map word = ts.map word := by
  fun_induction tighten nesting ts with
  | case1 => rfl
  | case2 nesting t ts _ ih => rw [List.map_cons, List.map_cons, ih]
  | case3 nesting t ts _ _ ih => rw [List.map_cons, List.map_cons, ih]
  | case4 nesting t ts _ _ _ ih =>
      rw [List.map_cons, List.map_cons, ih]
      rfl
  | case5 nesting t ts _ _ _ ih => rw [List.map_cons, List.map_cons, ih]

/-- In an argument no comma is outside of parentheses, and what follows an argument is tightened
by itself. -/
theorem tighten_append {nesting : Nat} {ts : List Token}
    (h : Word.closes false nesting (ts.map word) = true) (rest : List Token) :
    tighten nesting (ts ++ rest) = ts ++ tighten 0 rest := by
  have hmark : ∀ (t : Token) text, t.isMark text = decide (t.word = .mark text) :=
    fun t => Painted.isMark_eq (.plain t)
  induction ts generalizing nesting with
  | nil =>
      have hnesting : nesting = 0 := by simpa [Word.closes] using h
      rw [hnesting, List.nil_append, List.nil_append]
  | cons t ts ih =>
      rw [List.map_cons, Word.closes] at h
      rw [List.cons_append, List.cons_append, tighten, hmark, hmark, hmark]
      simp only [decide_eq_true_eq, Bool.and_eq_true, beq_iff_eq]
      split at h
      · next hopen => rw [if_pos hopen, ih h]
      · next hopen =>
        rw [if_neg hopen]
        split at h
        · next hclose =>
          rw [Bool.and_eq_true] at h
          rw [if_pos hclose, ih h.2]
        · next hclose =>
          rw [Bool.and_eq_true, Bool.false_or, Bool.or_eq_true, bne_iff_ne, bne_iff_ne] at h
          have hcomma : ¬ (t.word = .mark "," ∧ nesting = 0) := fun hand =>
            h.1.elim (fun hne => hne hand.2) fun hne => hne hand.1
          rw [if_neg hclose, if_neg hcomma, ih h.2]

theorem tighten_respace (nesting : Nat) (ts : List Token) :
    tighten nesting (respace false ts) = respace false (tighten nesting ts) := by
  have hmark : ∀ (t : Token) text, isMark { t with spaced := false } text = t.isMark text :=
    fun _ _ => rfl
  cases ts with
  | nil => rfl
  | cons t ts =>
      rw [respace_cons, tighten, tighten, hmark, hmark, hmark]
      repeat' split
      all_goals rfl

/-- Without a space a text is shorter. -/
theorem tighten_eq_or_length_lt (nesting : Nat) (ts : List Token) :
    tighten nesting ts = ts ∨ (written (tighten nesting ts)).length < (written ts).length := by
  have hcons : ∀ (t : Token) {us vs : List Token},
      us = vs ∨ (written us).length < (written vs).length →
      t :: us = t :: vs ∨ (written (t :: us)).length < (written (t :: vs)).length := by
    intro t us vs h
    refine h.imp (congrArg (t :: ·)) fun hlt => ?_
    rw [written_cons, written_cons, List.length_append, List.length_append]
    omega
  fun_induction tighten nesting ts with
  | case1 => exact .inl rfl
  | case2 nesting t ts _ ih => exact hcons t ih
  | case3 nesting t ts _ _ ih => exact hcons t ih
  | case4 nesting t ts _ _ _ ih =>
      cases hspaced : t.spaced with
      | false =>
          have ht : { t with spaced := false } = t := by rw [← hspaced]
          rw [ht]
          exact hcons t ih
      | true =>
          refine .inr ?_
          have hle : (written (tighten nesting ts)).length ≤ (written ts).length :=
            ih.elim (fun heq => by rw [heq]) Nat.le_of_lt
          simp only [written_cons, List.length_append, chars, hspaced, if_true,
            Bool.false_eq_true, if_false, List.length_cons]
          omega
  | case5 nesting t ts _ _ _ ih => exact hcons t ih

/-- The spelling shows the spaces of all tokens but the first one. -/
theorem spell_tighten_eq_iff (ts : List Token) :
    (spell (tighten 0 ts)).toList = (spell ts).toList ↔
      tighten 0 (respace false ts) = respace false ts := by
  rw [toList_spell, toList_spell, ← tighten_respace]
  refine ⟨fun h => ?_, fun h => by rw [h]⟩
  exact (tighten_eq_or_length_lt 0 (respace false ts)).resolve_right
    (Nat.not_lt.2 (Nat.le_of_eq (congrArg List.length h.symm)))

/-! ### Line feeds -/

/-- A spelling has the characters of its words, and spaces. -/
theorem newline_mem_spell_iff (ts : List Token) :
    '\n' ∈ (spell ts).toList ↔ ∃ w ∈ ts.map word, '\n' ∈ w.text.toList := by
  have hwritten : ∀ us : List Token,
      '\n' ∈ written us ↔ ∃ w ∈ us.map word, '\n' ∈ w.text.toList := by
    intro us
    induction us with
    | nil => simp
    | cons u us ih =>
        have hchars : '\n' ∈ chars u ↔ '\n' ∈ u.text.toList := by
          unfold chars
          split <;> simp
        rw [written_cons, List.mem_append, hchars, ih, List.map_cons]
        simp [word]
  rw [toList_spell, hwritten, map_word_respace]

/-- A text has the characters of the tokens that it is read as. -/
theorem Reads.mem_of_mem {spaced : Bool} {cs : List Char} {ts : List Token} (h : Reads spaced cs ts)
    {w : Word} (hw : w ∈ ts.map word) {c : Char} (hc : c ∈ w.text.toList) : c ∈ cs := by
  induction h with
  | nil => cases hw
  | blank _ _ ih => exact List.mem_cons_of_mem _ (ih hw)
  | @lexeme _ k text rest ts _ _ _ ih =>
      rw [List.map_cons, List.mem_cons] at hw
      rw [List.mem_append]
      rcases hw with rfl | hw
      · exact .inl (by simpa [word] using hc)
      · exact .inr (ih hw)

end Token

/-! ### Taking arguments apart and putting them together -/

/-- **What comes of tokens that are taken apart at their commas and put together again**: the
commas between the arguments lose their spaces. -/
theorem Invocation.Writes.map_toToken_intercalate {nesting : Nat} {arguments : List (List Painted)}
    {inside : List Painted} (h : Writes nesting arguments inside) :
    ([comma].intercalate arguments).map Painted.toToken =
      Token.tighten nesting (inside.map Painted.toToken) := by
  have hwords : ∀ ps : List Painted, ps.map Painted.word = (ps.map Painted.toToken).map Token.word :=
    fun ps => (List.map_map ..).symm
  induction h with
  | last hcloses =>
      rw [hwords] at hcloses
      have htight := Token.tighten_append hcloses []
      rw [List.append_nil, Token.tighten, List.append_nil] at htight
      rw [List.intercalate_singleton, htight]
  | @more nesting argument separator arguments inside hcloses hcomma hrest ih =>
      rw [hwords] at hcloses
      -- The comma is outside of parentheses, and a comma without a space is like every other.
      have hseparator : Token.tighten 0 (separator.toToken :: inside.map Painted.toToken) =
          Token.mark "," :: Token.tighten 0 (inside.map Painted.toToken) := by
        have hopen : separator.isMark "(" = false := Token.isMark_of_ne hcomma (by decide)
        have hclose : separator.isMark ")" = false := Token.isMark_of_ne hcomma (by decide)
        obtain ⟨hkind, htext⟩ := Token.isMark_iff.1 hcomma
        simp [Token.tighten, hopen, hclose, hcomma, Token.mark, hkind, htext]
      obtain ⟨next, others, rfl⟩ : ∃ next others, arguments = next :: others := by
        cases hrest <;> exact ⟨_, _, rfl⟩
      rw [List.intercalate_cons_cons, List.map_append, List.map_append, ih, List.map_append,
        List.map_singleton, List.map_cons, Token.tighten_append hcloses, hseparator,
        List.append_assoc]
      rfl

/-- A macro with nothing but an ellipsis receives what stands between the parentheses, without the
spaces before the commas between the arguments. -/
theorem Definition.delivers_tighten {d : Definition} (hparameters : d.parameters = some [])
    (hvariadic : d.variadic = true) {ts : List Token}
    (h : Word.IsBalanced (ts.map Token.word)) : d.Delivers 0 ts (Token.tighten 0 ts) := by
  refine ⟨Token.map_word_tighten 0 ts, fun close hclose => ?_⟩
  have hword : (ts.map Painted.plain).map Painted.word = ts.map Token.word := by
    rw [List.map_map]
    rfl
  obtain ⟨arguments, hwrites⟩ := Invocation.exists_writes_of_closes (hword ▸ h)
  have hmark : (Painted.plain close).isMark ")" = true := by
    rw [Painted.isMark_eq, decide_eq_true_eq]
    exact hclose
  have hread : Invocation.readArguments ((ts ++ [close]).map Painted.plain) =
      some ⟨arguments, .plain close, []⟩ :=
    Invocation.readArguments_eq_some_iff.2 ⟨_, hwrites, hmark, by rw [List.map_append]; rfl⟩
  have hbind := bind_of_fits hparameters (.inr (.inl ⟨hvariadic, Nat.zero_le arguments.length⟩))
  refine ⟨arguments, _, hread, hbind, ?_⟩
  rw [if_pos hvariadic]
  change ([Invocation.comma].intercalate arguments).map Painted.toToken = Token.tighten 0 ts
  rw [hwrites.map_toToken_intercalate, List.map_map, Function.comp_def]
  simp

namespace MacroTable

/-- **`#` makes one literal of an ellipsis**, and undoing the escapes between its quotes gives the
spelling of the text between the parentheses without the spaces before the commas that separate
arguments.  This is the spelling of the text itself exactly when no such comma has a space before
it, unless it comes first. -/
theorem exists_expand_stringizedTail {table : MacroTable} {f : String}
    (hd : table[f]? = some ⟨f, some [], true, [.mark "#", .name variadicName]⟩)
    (hf : isIdentifier f.toList = true) {limits : Limits} (hsteps : 0 < limits.steps)
    {argument : String} {ts : List Token} (hlex : Token.lex argument = .ok ts)
    (hts : Word.IsBalanced (ts.map Token.word)) :
    ∃ q inner, table.expand limits (f ++ "(" ++ argument ++ ")") = .ok ⟨[q], 1⟩ ∧
      q.kind = .literal ∧ q.text.toList = '"' :: (inner ++ ['"']) ∧
      Lexeme.unescape inner = (Token.spell (Token.tighten 0 ts)).toList ∧
      (Lexeme.unescape inner = (Token.spell ts).toList ↔
        Token.tighten 0 (Token.respace false ts) = Token.respace false ts) ∧
      ('\n' ∉ argument.toList → Token.lex q.text = .ok [q]) := by
  obtain ⟨d, hdef⟩ : ∃ d : Definition,
    d = ⟨f, some [], true, [.mark "#", .name variadicName]⟩ := ⟨_, rfl⟩
  have hname : d.name = f := by rw [hdef]
  have hquoting : d.IsQuoting 0 := by
    subst hdef
    refine ⟨rfl, .mark "#", .name variadicName, rfl, rfl, ?_⟩
    simp [Definition.parameterIndex?, Token.name]
  have hdelivers : d.Delivers 0 ts (Token.tighten 0 ts) :=
    Definition.delivers_tighten (by rw [hdef]) (by rw [hdef]) hts
  rw [← hdef, ← hname] at hd
  rw [← hname] at hf ⊢
  obtain ⟨q, inner, he, hkind, htext, hinner, hread⟩ :=
    exists_expand_isQuoting hd hf hquoting hsteps hlex hdelivers
  refine ⟨q, inner, he, hkind, htext, hinner, ?_, fun hline => ?_⟩
  · rw [hinner]
    exact Token.spell_tighten_eq_iff ts
  · rw [hread, if_neg]
    rw [Token.newline_mem_spell_iff, Token.map_word_tighten]
    rintro ⟨w, hw, hmem⟩
    exact hline ((Token.lex_eq_ok_iff.1 hlex).mem_of_mem hw hmem)

theorem ofCommandLine_stringizedTail : Definition.ofCommandLine "S(...)=#__VA_ARGS__" =
    .ok ⟨"S", some [], true, [.mark "#", .name variadicName]⟩ := by cbv

/-- A comma with a space that is inside of parentheses, and an empty argument. -/
theorem exists_expand_stringizedTail_nested :
    ∃ table : MacroTable, table.Reachable ∧ ∃ q inner,
      table.expand {} "S(x,\t(a , 'b'),)" = .ok ⟨[q], 1⟩ ∧ q.kind = .literal ∧
      q.text.toList = '"' :: (inner ++ ['"']) ∧
      Lexeme.unescape inner = "x, (a , 'b'),".toList ∧ Token.lex q.text = .ok [q] := by
  obtain ⟨ts, hts⟩ : ∃ ts : List Token, ts = [.name "x", .mark ",", (Token.mark "(").afterSpace,
    .name "a", (Token.mark ",").afterSpace, ⟨.literal, "'b'", true⟩, .mark ")", .mark ","] :=
    ⟨_, rfl⟩
  have hlex : Token.lex "x,\t(a , 'b')," = .ok ts := by
    subst hts
    cbv
  have hbalanced : Word.IsBalanced (ts.map Token.word) := by
    subst hts
    decide
  have hspell : Token.spell ts = "x, (a , 'b')," := by
    subst hts
    cbv
  have htight : Token.tighten 0 (Token.respace false ts) = Token.respace false ts := by
    subst hts
    decide
  have htable : (MacroTable.empty.define
      ⟨"S", some [], true, [.mark "#", .name variadicName]⟩)["S"]? =
      some ⟨"S", some [], true, [.mark "#", .name variadicName]⟩ := by
    rw [getElem?_define, if_pos rfl]
  have hcall : "S" ++ "(" ++ "x,\t(a , 'b')," ++ ")" = "S(x,\t(a , 'b'),)" := by cbv
  have hsteps : 0 < Limits.steps {} := by decide
  obtain ⟨q, inner, he, hkind, htext, -, hinner, hread⟩ :=
    exists_expand_stringizedTail htable (by decide) hsteps hlex hbalanced
  rw [hcall] at he
  rw [hspell] at hinner
  exact ⟨_, Reachable.empty.define_read ofCommandLine_stringizedTail, q, inner, he, hkind, htext,
    hinner.2 htight, hread (by decide)⟩

/-- The space before a comma that separates two arguments is not in the literal of an ellipsis. -/
theorem not_spell_expand_stringizedTail :
    ∃ table : MacroTable, table.Reachable ∧
      table["S"]? = some ⟨"S", some [], true, [.mark "#", .name variadicName]⟩ ∧
      '\n' ∉ "a , b".toList ∧
      ∃ ts, Token.lex "a , b" = .ok ts ∧ Word.IsBalanced (ts.map Token.word) ∧
        Token.spell ts = "a , b" ∧
        ∃ q, table.expand {} ("S(" ++ "a , b" ++ ")") = .ok ⟨[q], 1⟩ ∧ q.kind = .literal ∧
          ∃ inner, q.text.toList = '"' :: (inner ++ ['"']) ∧
            Lexeme.unescape inner = "a, b".toList ∧
            Lexeme.unescape inner ≠ (Token.spell ts).toList := by
  refine ⟨_, Reachable.empty.define_read ofCommandLine_stringizedTail,
    by rw [getElem?_define, if_pos rfl], by decide,
    [.name "a", (Token.mark ",").afterSpace, (Token.name "b").afterSpace], by cbv, by decide,
    by cbv, ⟨.literal, "\"a, b\"", false⟩, ?_, rfl, "a, b".toList, rfl, by cbv, ?_⟩
  · cbv
  · have hspell : Token.spell [.name "a", (Token.mark ",").afterSpace,
        (Token.name "b").afterSpace] = "a , b" := by cbv
    rw [hspell]
    decide

end MacroTable

end VariadicMacros
