/-
**Loading a text that was written line by line.**

Loading undoes writing one line at a time.  A comment line leaves an empty line, the line of a
definition is kept as it is, and a directive with a comment behind it keeps the directive; so a
written text is cut into the same lines again, and each of them has the effect that its line
stands for.

Main definitions:

* `VariadicMacros.Source.Leaves` — what is left of a piece of source whose comments are replaced;
* `VariadicMacros.Header.Line.IsRead` — a line is read as what it defines.

Main results:

* `VariadicMacros.Source.Leaves.of_legible` — nothing is lost of a legible token list;
* `VariadicMacros.Source.lines_flatMap` — lines that are joined are split again;
* `VariadicMacros.MacroTable.load_written` — **a text of lines that are read loads as their
  definitions, one after the other**.
-/

import VariadicMacros.Proofs.LexicalErrors
import VariadicMacros.Proofs.WrittenDefinition

set_option autoImplicit false

namespace VariadicMacros

namespace Source

open Lexeme (LiteralBody)

/-! ### What is left of a piece of source -/

/-- Inside a literal everything is kept. -/
theorem stripFrom_literalBody {quote : Char} {body : List Char} (h : LiteralBody quote body)
    (offset : Nat) (left rest : List Char) :
    ∃ offset', stripFrom (.literal quote false) offset left (body ++ rest) =
      stripFrom (.literal quote false) offset' (body.reverse ++ left) rest := by
  induction h generalizing offset left with
  | nil => exact ⟨offset, rfl⟩
  | @plain c cs hc _ ih =>
      obtain ⟨offset', hrest⟩ := ih (offset + c.utf8Size) (c :: left)
      refine ⟨offset', ?_⟩
      rw [List.cons_append, stripFrom, Context.next, if_neg Bool.false_ne_true, if_neg hc.1,
        if_neg (not_or.2 hc.2), Context.leave, hrest]
      simp
  | @escaped c cs _ ih =>
      obtain ⟨offset', hrest⟩ := ih (offset + '\\'.utf8Size + c.utf8Size) (c :: '\\' :: left)
      refine ⟨offset', ?_⟩
      rw [List.cons_append, List.cons_append, stripFrom, Context.next, if_neg Bool.false_ne_true,
        if_pos rfl, Context.leave, stripFrom, Context.next, if_pos rfl, Context.leave, hrest]
      simp

/-- A quote is kept with everything up to where its literal may end. -/
theorem stripFrom_quote {quote : Char} {body : List Char} (hquote : quote = '"' ∨ quote = '\'')
    (h : LiteralBody quote body) (offset : Nat) (left rest : List Char) :
    ∃ offset', stripFrom .code offset left (quote :: (body ++ rest)) =
      stripFrom (.literal quote false) offset' (body.reverse ++ quote :: left) rest := by
  have hslash : quote ≠ '/' := by
    rcases hquote with rfl | rfl <;> decide
  rw [stripFrom, Context.next, if_neg hslash, Context.opened, if_pos hquote, Context.leave,
    if_neg hslash]
  exact stripFrom_literalBody h _ _ rest

/-- Inside a comment nothing is kept, up to the line feed that ends it. -/
theorem stripFrom_lineComment {cs : List Char} (h : '\n' ∉ cs) (offset : Nat)
    (left rest : List Char) :
    ∃ offset', stripFrom .lineComment offset left (cs ++ '\n' :: rest) =
      stripFrom .code offset' ('\n' :: left) rest := by
  induction cs generalizing offset with
  | nil => exact ⟨offset + '\n'.utf8Size, by simp [stripFrom, Context.next, Context.leave]⟩
  | cons c cs ih =>
      simp only [List.mem_cons, not_or] at h
      obtain ⟨offset', hrest⟩ := ih h.2 (offset + c.utf8Size)
      refine ⟨offset', ?_⟩
      rw [List.cons_append, stripFrom, Context.next, if_neg (Ne.symm h.1), Context.leave,
        if_neg (Ne.symm h.1), hrest]

/-- Wherever `cs` stands in code it leaves `ds`, and code goes on after it. -/
def Leaves (cs ds : List Char) : Prop :=
  ∀ (offset : Nat) (left rest : List Char), ∃ offset',
    stripFrom .code offset left (cs ++ rest) = stripFrom .code offset' (ds.reverse ++ left) rest

namespace Leaves

theorem nil : Leaves [] [] := fun offset _ _ => ⟨offset, rfl⟩

theorem append {cs ds cs' ds' : List Char} (h : Leaves cs ds) (h' : Leaves cs' ds') :
    Leaves (cs ++ cs') (ds ++ ds') := by
  intro offset left rest
  obtain ⟨offset₁, h₁⟩ := h offset left (cs' ++ rest)
  obtain ⟨offset₂, h₂⟩ := h' offset₁ (ds.reverse ++ left) rest
  exact ⟨offset₂, by rw [List.append_assoc, h₁, h₂]; simp⟩

/-- A character that starts neither a comment nor a literal is kept. -/
theorem single {c : Char} (h : c ≠ '/') (hq : ¬ (c = '"' ∨ c = '\'')) : Leaves [c] [c] :=
  fun _ left rest => ⟨_, stripFrom_code_cons h hq _ left rest⟩

theorem plain {cs : List Char} (h : ∀ c ∈ cs, c ≠ '/' ∧ ¬ (c = '"' ∨ c = '\'')) :
    Leaves cs cs := by
  induction cs with
  | nil => exact nil
  | cons c cs ih =>
      have hc := h c (by simp)
      exact (single hc.1 hc.2).append (ih fun d hd => h d (by simp [hd]))

/-- A literal is kept up to the quote that closes it, or to the end of its line. -/
theorem literal {quote close : Char} {body : List Char} (hquote : quote = '"' ∨ quote = '\'')
    (h : LiteralBody quote body) (hclose : close = quote ∨ close = '\n') :
    Leaves (quote :: (body ++ [close])) (quote :: (body ++ [close])) := by
  intro offset left rest
  have hescape : close ≠ '\\' := by
    rcases hclose with rfl | rfl
    · exact (Lexeme.quote_ne hquote).1
    · decide
  obtain ⟨offset', hbody⟩ := stripFrom_quote hquote h offset left (close :: rest)
  refine ⟨offset' + close.utf8Size, ?_⟩
  rw [List.cons_append, List.append_assoc, List.singleton_append, hbody, stripFrom, Context.next,
    if_neg Bool.false_ne_true, if_neg hescape, if_pos hclose, Context.leave]
  simp

/-- Of a comment that ends with its line the line feed is left. -/
theorem comment {cs : List Char} (h : '\n' ∉ cs) : Leaves ('/' :: '/' :: cs ++ ['\n']) ['\n'] := by
  intro offset left rest
  obtain ⟨offset', hrest⟩ :=
    stripFrom_lineComment h (offset + '/'.utf8Size + '/'.utf8Size) left rest
  refine ⟨offset', ?_⟩
  -- The first slash is kept back until the second one shows that a comment begins.
  have hopen : stripFrom .code offset left ('/' :: '/' :: cs ++ ['\n'] ++ rest) =
      stripFrom .lineComment (offset + '/'.utf8Size + '/'.utf8Size) left (cs ++ '\n' :: rest) := by
    simp [stripFrom, Context.next, Context.leave]
  rw [hopen, hrest]
  rfl

end Leaves

/-- A source of which something is left in the end. -/
theorem stripComments_of_leaves {cs ds : List Char} (h : Leaves cs ds) :
    stripComments cs = .ok ds := by
  obtain ⟨offset, hrest⟩ := h 0 [] []
  rw [List.append_nil] at hrest
  rw [stripComments, hrest]
  simp [stripFrom, Context.finish, Except.map]

/-! ### Characters that stay on their line -/

/-- Whether a character ends no line and joins none. -/
def staysOnLine (c : Char) : Bool := c != '\n' && c != '\r' && c != '\\'

theorem staysOnLine_of_isNameChar {c : Char} (h : Text.isNameChar c = true) :
    staysOnLine c = true ∧ c ≠ '/' ∧ ¬ (c = '"' ∨ c = '\'') := by
  have hne : ∀ d : Char, Text.isNameChar d = false → c ≠ d := by
    rintro d hd rfl
    rw [h] at hd
    cases hd
  have hquote := hne '"' rfl
  have hapostrophe := hne '\'' rfl
  simp [staysOnLine, hne '\n' rfl, hne '\r' rfl, hne '\\' rfl, hne '/' rfl, hquote, hapostrophe]

namespace Leaves

/-- Names and numbers are kept, and they stay on their line. -/
theorem of_nameChars {cs : List Char} (h : ∀ c ∈ cs, Text.isNameChar c = true) :
    Leaves cs cs ∧ cs.all staysOnLine = true := by
  refine ⟨plain fun c hc => (staysOnLine_of_isNameChar (h c hc)).2, ?_⟩
  exact List.all_eq_true.2 fun c hc => (staysOnLine_of_isNameChar (h c hc)).1

/-- The punctuators of legible tokens are kept, and they stay on their line. -/
theorem of_punctuator {text : String} (h : text ∈ "#" :: Token.solid) :
    Leaves text.toList text.toList ∧ text.toList.all staysOnLine = true := by
  have hall : ∀ text ∈ "#" :: Token.solid, text.toList.all (fun c =>
      staysOnLine c && c != '/' && c != '"' && c != '\'') = true := by decide
  have hchars := List.all_eq_true.1 (hall text h)
  simp only [Bool.and_eq_true, bne_iff_ne] at hchars
  refine ⟨plain fun c hc => ⟨(hchars c hc).1.1.2, ?_⟩, ?_⟩
  · rintro (hq | hq)
    · exact (hchars c hc).1.2 hq
    · exact (hchars c hc).2 hq
  · exact List.all_eq_true.2 fun c hc => (hchars c hc).1.1.1

/-- A token that fits before the next one is kept, and it stays on its line. -/
theorem of_fits {t : Token} {next : Option Token} (h : t.fits next = true) :
    Leaves t.chars t.chars ∧ t.chars.all staysOnLine = true := by
  suffices htext : Leaves t.text.toList t.text.toList ∧ t.text.toList.all staysOnLine = true by
    unfold Token.chars
    split
    · have hspace : Leaves [' '] [' '] := single (by decide) (by decide)
      refine ⟨hspace.append htext.1, ?_⟩
      rw [List.all_cons, htext.2]
      rfl
    · exact htext
  unfold Token.fits at h
  cases hk : t.kind with
  | identifier =>
      simp only [hk, Bool.and_eq_true] at h
      exact of_nameChars (List.all_eq_true.1 (Text.all_isNameChar_of_isIdentifier h.1))
  | number =>
      simp only [hk, Bool.and_eq_true] at h
      refine of_nameChars fun c hc => ?_
      cases ht : t.text.toList with
      | nil => simp [ht] at hc
      | cons d ds =>
          rw [ht] at h hc
          simp only [Token.isNumeral, Bool.and_eq_true, List.all_eq_true] at h
          have hdigit : c.isDigit = true := by
            rcases List.mem_cons.1 hc with rfl | hc
            · exact h.1.1
            · exact h.1.2 c hc
          simp [Text.isNameChar, Char.isAlphanum, hdigit]
  | literal =>
      simp only [hk, Token.isPlainLiteral] at h
      split at h
      · next cs ht =>
        simp only [Bool.and_eq_true, beq_iff_eq, List.all_eq_true, bne_iff_ne, and_assoc] at h
        obtain ⟨body, rfl⟩ := List.getLast?_eq_some_iff.1 h.1
        rw [List.dropLast_concat] at h
        rw [ht]
        refine ⟨literal (.inl rfl) (.of_forall fun c hc => ?_) (.inl rfl), ?_⟩
        · exact ⟨(h.2 c hc).1, (h.2 c hc).2.1, (h.2 c hc).2.2.1⟩
        · refine List.all_eq_true.2 fun c hc => ?_
          simp only [List.mem_cons, List.mem_append, List.not_mem_nil, or_false] at hc
          rcases hc with rfl | hc | rfl
          · rfl
          · simp [staysOnLine, (h.2 c hc).1, (h.2 c hc).2.2.1, (h.2 c hc).2.2.2]
          · rfl
      · cases h
  | punctuator =>
      simp only [hk, Bool.or_eq_true, List.contains_eq_mem, decide_eq_true_eq, Bool.and_eq_true,
        beq_iff_eq] at h
      refine of_punctuator ?_
      rcases h with h | ⟨h, -⟩
      · exact List.mem_cons_of_mem _ h
      · simp [h]

/-- Nothing is lost of a legible token list, and it stays on its line. -/
theorem of_legible {ts : List Token} {next : Option Token}
    (h : Token.legibleBefore next ts = true) :
    Leaves (Token.written ts) (Token.written ts) ∧
      (Token.written ts).all staysOnLine = true := by
  induction ts with
  | nil => exact ⟨nil, rfl⟩
  | cons t ts ih =>
      simp only [Token.legibleBefore_cons, Bool.and_eq_true] at h
      obtain ⟨hleaves, hstays⟩ := of_fits h.1
      obtain ⟨hleaves', hstays'⟩ := ih h.2
      refine ⟨hleaves.append hleaves', ?_⟩
      rw [Token.written_cons, List.all_append, hstays, hstays']
      rfl

end Leaves

/-! ### Joining lines and splitting them again -/

theorem withoutReturn_reverse {line : List Char} (h : line.all staysOnLine = true) :
    withoutReturn line.reverse = line := by
  unfold withoutReturn
  split
  · next cs hcs =>
    have hmem : '\r' ∈ line := by
      rw [← List.mem_reverse, hcs]
      simp
    exact absurd (List.all_eq_true.1 h '\r' hmem) (by decide)
  · simp

/-- Lines that are joined are split again. -/
theorem lines_flatMap {ls : List (List Char)} (h : ∀ l ∈ ls, l.all staysOnLine = true) :
    lines (ls.flatMap (· ++ ['\n'])) = ls := by
  induction ls with
  | nil => rfl
  | cons l ls ih =>
      have hl : l.all staysOnLine = true := h l (by simp)
      have hnewline : '\n' ∉ l := fun hmem =>
        absurd (List.all_eq_true.1 hl '\n' hmem) (by decide)
      have hrest := ih fun m hm => h m (by simp [hm])
      rw [lines] at hrest ⊢
      rw [List.flatMap_cons, List.append_assoc, linesFrom_append hnewline, List.append_nil,
        List.singleton_append, linesFrom_newline, withoutReturn_reverse hl, hrest]

end Source

/-! ### Lines that are read as what they define -/

/-- What a line asks for is what it defines, and a line that defines nothing asks for nothing
that changes a table. -/
def Directive.Agrees (directive? : Option Directive) : Option Definition → Prop
  | some d => directive? = some (.define d)
  | none => directive? = none ∨ ∃ keyword, directive? = some (.skipped keyword)

/-- Reading a line that agrees with what it defines. -/
theorem Loading.readLine_of_agrees {l : Loading} {count : Nat} {line : List Char}
    {directive? : Option Directive} {d? : Option Definition} (hcount : l.result = .ok count)
    (hline : Directive.ofLine line = .ok directive?) (h : Directive.Agrees directive? d?) :
    (l.readLine line).table = d?.toList.foldl MacroTable.define l.table ∧
      (l.readLine line).result = .ok (count + d?.toList.length) := by
  cases d? with
  | some d =>
      have hd : directive? = some (.define d) := h
      subst hd
      simp [readLine, hcount, hline, MacroTable.perform, Directive.weight]
  | none =>
      rcases h with rfl | ⟨keyword, rfl⟩
      · simp [readLine, hcount, hline]
      · simp [readLine, hcount, hline, MacroTable.perform, Directive.weight]

namespace Header.Line

open Source (Leaves staysOnLine)

/-- A line that is read as what it defines. -/
structure IsRead (l : Line) (cs kept : List Char) : Prop where
  /-- The line is written as the characters `cs` and a line feed. -/
  written : ∀ out, (l.writeOnto out).toList = out.toList ++ (cs ++ ['\n'])
  stays : cs.all staysOnLine = true
  /-- Of the written line `kept` is left. -/
  leaves : Leaves (cs ++ ['\n']) (kept ++ ['\n'])
  keptStays : kept.all staysOnLine = true
  directive : ∃ directive?, Directive.ofLine kept = .ok directive? ∧
    Directive.Agrees directive? l.definition?

/-- A line that is read as what it defines, whatever its characters. -/
def Reads (l : Line) : Prop := ∃ cs kept, IsRead l cs kept

theorem leaves_newline : Leaves ['\n'] ['\n'] := Leaves.single (by decide) (by decide)

/-- A comment is read as nothing. -/
theorem reads_of_comment {l : Line} (cs : List Char)
    (hwritten : ∀ out, (l.writeOnto out).toList = out.toList ++ ('/' :: '/' :: cs ++ ['\n']))
    (hstays : cs.all staysOnLine = true) (hdefinition : l.definition? = none) : l.Reads := by
  have hnewline : '\n' ∉ cs := fun hmem => absurd (List.all_eq_true.1 hstays '\n' hmem) (by decide)
  refine ⟨'/' :: '/' :: cs, [], hwritten, ?_, Leaves.comment hnewline, rfl, none, rfl, ?_⟩
  · rw [List.all_cons, List.all_cons, hstays]
    rfl
  · rw [hdefinition]
    exact .inl rfl

/-- A line of documentation is read as nothing. -/
theorem reads_doc {content : String} (h : content.toList.all staysOnLine = true) :
    Reads (.doc content) := by
  by_cases hempty : content = ""
  · subst hempty
    refine reads_of_comment ['/'] ?_ rfl rfl
    intro out
    simp [writeOnto]
  · refine reads_of_comment ('/' :: ' ' :: content.toList) ?_ ?_ rfl
    · intro out
      simp [writeOnto, hempty]
    · rw [List.all_cons, List.all_cons, h]
      rfl

/-- The line of a definition is read as that definition. -/
theorem reads_define {d : Definition} (h : d.Writable) (spacing : Spacing) :
    Reads (.define spacing d) := by
  have hlegible := Definition.legible_definitionTokens h spacing
  obtain ⟨hleaves, hstays⟩ := Leaves.of_legible hlegible
  have hkeyword : Leaves "#define".toList "#define".toList := Leaves.plain (by simp)
  have hall : ("#define".toList ++ Token.written (definitionTokens spacing d)).all
      staysOnLine = true := by
    rw [List.all_append, hstays]
    decide
  refine ⟨"#define".toList ++ Token.written (definitionTokens spacing d),
    "#define".toList ++ Token.written (definitionTokens spacing d), ?_, hall,
    (hkeyword.append hleaves).append leaves_newline, hall, some (.define d),
    Directive.ofLine_define h spacing, rfl⟩
  intro out
  rw [toList_writeOnto_define, List.append_assoc]

/-- What is left of a text of lines that are read. -/
theorem exists_kept {ls : List Line} (h : ∀ l ∈ ls, l.Reads) :
    ∃ (cs : List Char) (kept : List (List Char)),
      (∀ out, (ls.foldl writeOnto out).toList = out.toList ++ cs) ∧ '\\' ∉ cs ∧
      Leaves cs (kept.flatMap (· ++ ['\n'])) ∧ (∀ line ∈ kept, line.all staysOnLine = true) ∧
      List.Forall₂ (fun line l => ∃ directive?, Directive.ofLine line = .ok directive? ∧
        Directive.Agrees directive? l.definition?) kept ls := by
  -- No line holds a backslash, so that splicing changes nothing before comments are taken out.
  induction ls with
  | nil => exact ⟨[], [], by simp, by simp, Leaves.nil, by simp, .nil⟩
  | cons l ls ih =>
      obtain ⟨cs, kept, hread⟩ := h l (by simp)
      obtain ⟨cs', kept', hwritten, hbackslash, hleaves, hstays, hall⟩ :=
        ih fun m hm => h m (by simp [hm])
      refine ⟨cs ++ ['\n'] ++ cs', kept :: kept', ?_, ?_, ?_, ?_, ?_⟩
      · intro out
        rw [List.foldl_cons, hwritten, hread.written]
        simp
      · have hcs : '\\' ∉ cs := fun hmem =>
          absurd (List.all_eq_true.1 hread.stays '\\' hmem) (by decide)
        simp [hcs, hbackslash]
      · exact hread.leaves.append hleaves
      · intro line hline
        rcases List.mem_cons.1 hline with rfl | hline
        · exact hread.keptStays
        · exact hstays line hline
      · exact .cons hread.directive hall

/-- Reading what is left of a text of lines makes their definitions. -/
theorem foldl_readLine {kept : List (List Char)} {ls : List Line}
    (h : List.Forall₂ (fun line l => ∃ directive?, Directive.ofLine line = .ok directive? ∧
      Directive.Agrees directive? l.definition?) kept ls)
    {loading : Loading} {count : Nat} (hcount : loading.result = .ok count) :
    (kept.foldl Loading.readLine loading).table =
        (ls.filterMap definition?).foldl MacroTable.define loading.table ∧
      (kept.foldl Loading.readLine loading).result =
        .ok (count + (ls.filterMap definition?).length) := by
  induction h generalizing loading count with
  | nil => exact ⟨rfl, hcount⟩
  | @cons line l kept ls hline _ ih =>
      obtain ⟨directive?, hline, hagrees⟩ := hline
      obtain ⟨htable, hresult⟩ := Loading.readLine_of_agrees hcount hline hagrees
      obtain ⟨ihTable, ihResult⟩ := ih hresult
      rw [List.foldl_cons, ihTable, ihResult, htable]
      cases hd : l.definition? with
      | none => simp [hd]
      | some d =>
          have hlength : count + 1 + (ls.filterMap definition?).length =
              count + ((ls.filterMap definition?).length + 1) := by omega
          simp [hd, hlength]

end Header.Line

namespace MacroTable

/-- **A text of lines that are read loads as their definitions, one after the other.** -/
theorem load_written {ls : List Header.Line} (h : ∀ l ∈ ls, l.Reads) (table : MacroTable) :
    (table.load (ls.foldl Header.Line.writeOnto "")).table =
        (ls.filterMap Header.Line.definition?).foldl define table ∧
      (table.load (ls.foldl Header.Line.writeOnto "")).result =
        .ok (ls.filterMap Header.Line.definition?).length := by
  obtain ⟨cs, kept, hwritten, hbackslash, hleaves, hstays, hall⟩ := Header.Line.exists_kept h
  have htext : (ls.foldl Header.Line.writeOnto "").toList = cs := by simpa using hwritten ""
  have hstart : (Loading.start table).result = .ok 0 := rfl
  obtain ⟨htable, hresult⟩ := Header.Line.foldl_readLine hall hstart
  rw [load_eq, htext, Source.splice_of_notMem hbackslash, Source.stripComments_of_leaves hleaves]
  simp only
  rw [Source.lines_flatMap hstays]
  rw [Nat.zero_add] at hresult
  unfold Loading.finish
  rw [hresult]
  exact ⟨htable, rfl⟩

end MacroTable

end VariadicMacros
