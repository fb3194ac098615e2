/-
**Sources that are loaded one after the other.**

Two sources that are joined are read like the first one and then the second one, if the first one
ends with a line feed that no backslash stands before once its continued lines are joined, and if it
can be read on its own.  Each pass is then at its start again where the second source begins: a
continued line ends in a line feed, so none of them goes across; a line feed ends a literal and a
comment of one line, and a comment that is still open there would be an error of the first source;
and the line feed ends a line.

Main definitions:

* `VariadicMacros.Source.EndsLine`, `VariadicMacros.Source.ClosesLine` — a text that is empty or
  ends in a line feed, in the second case one that no backslash stands before;
* `VariadicMacros.Source.Removes` — what is left of a text when the occurrences of another text are
  taken out.

Main results:

* `VariadicMacros.Source.splice_append` — continued lines of two texts are joined apart;
* `VariadicMacros.Source.leaves_of_stripComments` — a text without an open comment that closes its
  line is left in code;
* `VariadicMacros.Source.lines_append` — the lines of two texts are split apart;
* `VariadicMacros.MacroTable.load_append` — **joined sources are loaded one after the other**.
-/

import VariadicMacros.Proofs.LoadedLines
import VariadicMacros.Proofs.MovedErrors
import VariadicMacros.Proofs.RepeatedLoads

set_option autoImplicit false

namespace VariadicMacros

namespace Source

/-! ### Continued lines -/

/-- A text that is empty or ends in a line feed. -/
def EndsLine (cs : List Char) : Prop := ∀ c ∈ cs.getLast?, c = '\n'

theorem endsLine_append {cs ds : List Char} (hcs : EndsLine cs) (hds : EndsLine ds) :
    EndsLine (cs ++ ds) := by
  intro c hc
  rw [List.getLast?_append] at hc
  cases h : ds.getLast? with
  | none =>
      rw [h] at hc
      exact hcs c hc
  | some d =>
      rw [h] at hc
      cases hc
      exact hds _ h

/-- The end of a text that ends its line does so too. -/
theorem EndsLine.of_suffix {cs ds : List Char} (h : EndsLine cs) (hds : ds <:+ cs) :
    EndsLine ds := by
  obtain ⟨before, rfl⟩ := hds
  intro c hc
  refine h c ?_
  rw [List.getLast?_append, Option.mem_def.1 hc]
  rfl

/-- A text that ends its line and is not empty has a line feed at its end. -/
theorem EndsLine.exists_append {cs : List Char} (h : EndsLine cs) (hne : cs ≠ []) :
    ∃ body, cs = body ++ ['\n'] := by
  refine ⟨cs.dropLast, ?_⟩
  rw [← h (cs.getLast hne) (List.getLast?_eq_some_getLast hne), List.dropLast_concat_getLast]

/-- `ds` is what is left of `cs` when, from its start on, every occurrence of `p` is taken out. -/
inductive Removes (p : List Char) : List Char → List Char → Prop
  | nil : Removes p [] []
  | gone {cs ds : List Char} (h : Removes p cs ds) : Removes p (p ++ cs) ds
  | kept {c : Char} {cs ds : List Char} (hp : ¬ p <+: c :: cs) (h : Removes p cs ds) :
      Removes p (c :: cs) (c :: ds)

/-- Something is left of every text. -/
theorem exists_removes {p : List Char} (hp : p ≠ []) (cs : List Char) : ∃ ds, Removes p cs ds := by
  -- An occurrence takes several characters at once.
  induction hn : cs.length using Nat.strongRecOn generalizing cs with
  | _ n ih =>
      by_cases hprefix : p <+: cs
      · obtain ⟨rest, rfl⟩ := hprefix
        have hpos := List.length_pos_iff.2 hp
        rw [List.length_append] at hn
        obtain ⟨ds, h⟩ := ih rest.length (by omega) rest rfl
        exact ⟨ds, .gone h⟩
      · cases cs with
        | nil => exact ⟨[], .nil⟩
        | cons c cs =>
            rw [List.length_cons] at hn
            obtain ⟨ds, h⟩ := ih cs.length (by omega) cs rfl
            exact ⟨c :: ds, .kept hprefix h⟩

namespace Removes

variable {p cs ds : List Char}

/-- What is left has been there before. -/
theorem sublist (h : Removes p cs ds) : ds.Sublist cs := by
  induction h with
  | nil => exact .slnil
  | gone _ ih => exact ih.trans (List.sublist_append_right p _)
  | kept _ _ ih => exact ih.cons_cons _

/-- If what is taken out ends in a line feed, a text ends its line when what is left of it does. -/
theorem endsLine (h : Removes p cs ds) (hp : EndsLine p) (hds : EndsLine ds) : EndsLine cs := by
  induction h with
  | nil => exact hds
  | gone _ ih => exact endsLine_append hp (ih hds)
  | @kept c cs ds _ h ih =>
      cases cs with
      | nil =>
          obtain rfl := List.sublist_nil.1 h.sublist
          exact hds
      | cons d cs =>
          have hrest : EndsLine (d :: cs) := ih (hds.of_suffix (List.suffix_cons c ds))
          exact fun e he => hrest e (by simpa using he)

/-- No occurrence of a text goes across the end of a line if the only line feed of the text is its
last character. -/
theorem append {q cs' ds' : List Char} (h : Removes (q ++ ['\n']) cs ds) (hq : '\n' ∉ q)
    (hcs : EndsLine cs) (h' : Removes (q ++ ['\n']) cs' ds') :
    Removes (q ++ ['\n']) (cs ++ cs') (ds ++ ds') := by
  induction h with
  | nil => exact h'
  | gone _ ih =>
      rw [List.append_assoc]
      exact .gone (ih (hcs.of_suffix (List.suffix_append _ _)))
  | @kept c cs ds hp h ih =>
      refine .kept (fun hprefix => ?_) (ih (hcs.of_suffix (List.suffix_cons c cs)))
      obtain ⟨body, hbody⟩ := hcs.exists_append (List.cons_ne_nil c cs)
      -- An occurrence that goes on after the line feed has a line feed inside.
      rcases List.prefix_or_prefix_of_prefix hprefix (List.prefix_append (c :: cs) cs') with
        hin | hacross
      · exact hp hin
      · rw [hbody, List.prefix_concat_iff] at hacross
        rcases hacross with heq | hmem
        · exact hp (by rw [hbody, heq])
        · exact hq (hmem.subset (by simp))

theorem spliceReturns_eq (h : Removes ['\\', '\r', '\n'] cs ds) (done : List Char) :
    spliceReturns done cs = done.reverse ++ ds := by
  induction h generalizing done with
  | nil => simp [spliceReturns]
  | gone _ ih =>
      rw [List.cons_append, List.cons_append, List.singleton_append, spliceReturns, ih]
  | kept hp _ ih =>
      rw [spliceReturns, ih]
      · simp
      · rintro rest rfl rfl
        exact hp ⟨rest, rfl⟩

theorem spliceFeeds_eq (h : Removes ['\\', '\n'] cs ds) (done : List Char) :
    spliceFeeds done cs = done.reverse ++ ds := by
  induction h generalizing done with
  | nil => simp [spliceFeeds]
  | gone _ ih => rw [List.cons_append, List.singleton_append, spliceFeeds, ih]
  | kept hp _ ih =>
      rw [spliceFeeds, ih]
      · simp
      · rintro rest rfl rfl
        exact hp ⟨rest, rfl⟩

end Removes

/-- What is left of a text whose continued lines are joined: first those that end in a carriage
return and a line feed, then those that end in a line feed. -/
theorem splice_eq_of_removes {cs mid ds : List Char} (h : Removes ['\\', '\r', '\n'] cs mid)
    (h' : Removes ['\\', '\n'] mid ds) : splice cs = ds := by
  rw [splice, h.spliceReturns_eq, List.reverse_nil, List.nil_append, h'.spliceFeeds_eq]
  rfl

theorem exists_removes_splice (cs : List Char) :
    ∃ mid, Removes ['\\', '\r', '\n'] cs mid ∧ Removes ['\\', '\n'] mid (splice cs) := by
  obtain ⟨mid, h⟩ := exists_removes (List.cons_ne_nil '\\' ['\r', '\n']) cs
  obtain ⟨ds, h'⟩ := exists_removes (List.cons_ne_nil '\\' ['\n']) mid
  exact ⟨mid, h, splice_eq_of_removes h h' ▸ h'⟩

/-- **Continued lines of two texts are joined apart** if the first one ends its line. -/
theorem splice_append {cs : List Char} (h : EndsLine (splice cs)) (ds : List Char) :
    splice (cs ++ ds) = splice cs ++ splice ds := by
  obtain ⟨mid, hreturns, hfeeds⟩ := exists_removes_splice cs
  obtain ⟨mid', hreturns', hfeeds'⟩ := exists_removes_splice ds
  have hmid : EndsLine mid := hfeeds.endsLine (by simp [EndsLine]) h
  have hcs : EndsLine cs := hreturns.endsLine (by simp [EndsLine]) hmid
  exact splice_eq_of_removes (hreturns.append (q := ['\\', '\r']) (by decide) hcs hreturns')
    (hfeeds.append (q := ['\\']) (by decide) hmid hfeeds')

/-! ### Comments -/

namespace Context

theorem opened_ne_escaped (c quote : Char) : opened c ≠ .literal quote true := by
  unfold opened
  split <;> simp

/-- Only a backslash escapes what comes after it. -/
theorem eq_of_next_eq_escaped {context : Context} {offset : Nat} {c quote : Char}
    (h : context.next offset c = .literal quote true) : c = '\\' := by
  cases context with
  | code =>
      simp only [next] at h
      split at h
      · cases h
      · exact absurd h (opened_ne_escaped c quote)
  | slash start =>
      simp only [next] at h
      split at h
      · cases h
      · split at h
        · cases h
        · exact absurd h (opened_ne_escaped c quote)
  | lineComment =>
      simp only [next] at h
      split at h <;> cases h
  | blockComment start star =>
      simp only [next] at h
      split at h <;> cases h
  | literal quote' escaped =>
      simp only [next] at h
      split at h
      · cases h
      · split at h
        · assumption
        · split at h <;> cases h

/-- A line feed that is not escaped is kept and ends everything but a comment that has to be
closed. -/
theorem next_newline (context : Context) (offset : Nat)
    (h : ∀ quote, context ≠ .literal quote true) :
    (context.next offset '\n' = .code ∧ ∃ kept, context.leave '\n' [] = '\n' :: kept) ∨
      ∃ start star, context.next offset '\n' = .blockComment start star := by
  cases context with
  | code => exact .inl ⟨rfl, [], rfl⟩
  | slash start => exact .inl ⟨rfl, ['/'], rfl⟩
  | lineComment => exact .inl ⟨rfl, [], rfl⟩
  | blockComment start star => exact .inr ⟨start, false, by simp [next]⟩
  | literal quote escaped =>
      cases escaped with
      | false => exact .inl ⟨by simp [next], [], rfl⟩
      | true => exact absurd rfl (h quote)

end Context

/-- What is left of a text does not depend on where it starts. -/
theorem stripFrom_code_of_stripComments {cs ds : List Char} (h : stripComments cs = .ok ds)
    (offset : Nat) : stripFrom .code offset [] cs = .ok ds := by
  have hmoved := stripFrom_moved offset .code 0 [] cs
  rw [show stripFrom .code 0 [] cs = .ok ds from h] at hmoved
  exact hmoved

/-- The comments of a text are replaced before those of the text that follows it; what comes next is
escaped only after a backslash. -/
theorem exists_stripFrom_append (offset : Nat) (cs : List Char) :
    ∃ context offset' kept,
      (∀ left rest, stripFrom .code offset left (cs ++ rest) =
        stripFrom context offset' (kept ++ left) rest) ∧
      ∀ quote, context = .literal quote true → cs.getLast? = some '\\' := by
  induction cs using List.reverseRecOn with
  | nil => exact ⟨.code, offset, [], fun _ _ => rfl, fun _ h => nomatch h⟩
  | append_singleton cs c ih =>
      obtain ⟨context, offset', kept, hstrip, -⟩ := ih
      refine ⟨context.next offset' c, offset' + c.utf8Size, context.leave c [] ++ kept,
        fun left rest => ?_, fun quote hquote => ?_⟩
      · rw [List.append_assoc, hstrip, List.singleton_append, stripFrom, Context.leave_eq_append,
          List.append_assoc]
      · rw [Context.eq_of_next_eq_escaped hquote, List.getLast?_concat]

/-- After a line feed that no backslash stands before comes code, unless a comment is open, and the
line feed is left. -/
theorem exists_stripFrom_line (offset : Nat) {body : List Char}
    (hbody : body.getLast? ≠ some '\\') :
    ∃ context offset' kept,
      (∀ left rest, stripFrom .code offset left (body ++ ['\n'] ++ rest) =
        stripFrom context offset' (kept ++ left) rest) ∧
      ((context = .code ∧ ∃ more, kept = '\n' :: more) ∨
        ∃ start star, context = .blockComment start star) := by
  obtain ⟨context, offset', kept, hstrip, hescaped⟩ := exists_stripFrom_append offset body
  refine ⟨context.next offset' '\n', offset' + '\n'.utf8Size, context.leave '\n' [] ++ kept,
    fun left rest => ?_, ?_⟩
  · rw [List.append_assoc, hstrip, List.singleton_append, stripFrom, Context.leave_eq_append,
      List.append_assoc]
  · rcases context.next_newline offset' fun quote hquote => hbody (hescaped quote hquote) with
      ⟨hcode, more, hmore⟩ | hopen
    · exact .inl ⟨hcode, more ++ kept, by rw [hmore]; rfl⟩
    · exact .inr hopen

/-- A text that is empty or ends in a line feed that no backslash stands before. -/
def ClosesLine (cs : List Char) : Prop :=
  cs = [] ∨ ∃ body, cs = body ++ ['\n'] ∧ body.getLast? ≠ some '\\'

theorem ClosesLine.endsLine {cs : List Char} (h : ClosesLine cs) : EndsLine cs := by
  obtain rfl | ⟨body, rfl, -⟩ := h <;> simp [EndsLine]

/-- **A text that closes its line is left in code** if no comment is open at its end, and what is
left of it ends its line. -/
theorem leaves_of_stripComments {cs ds : List Char} (hcs : ClosesLine cs)
    (h : stripComments cs = .ok ds) : Leaves cs ds ∧ EndsLine ds := by
  obtain rfl | ⟨body, rfl, hbody⟩ := hcs
  · cases h
    exact ⟨.nil, by simp [EndsLine]⟩
  have hleaves : ∀ offset, ∃ offset' more, ds = more.reverse ++ ['\n'] ∧ ∀ left rest,
      stripFrom .code offset left (body ++ ['\n'] ++ rest) =
        stripFrom .code offset' ('\n' :: more ++ left) rest := by
    intro offset
    have hall := stripFrom_code_of_stripComments h offset
    obtain ⟨context, offset', kept, hstrip, hcontext⟩ := exists_stripFrom_line offset hbody
    rw [← List.append_nil (body ++ ['\n']), hstrip] at hall
    obtain ⟨rfl, more, rfl⟩ | ⟨start, star, rfl⟩ := hcontext
    · refine ⟨offset', more, ?_, hstrip⟩
      simpa [stripFrom, Context.finish, Except.map] using hall.symm
    · cases hall
  obtain ⟨-, more, hds, -⟩ := hleaves 0
  refine ⟨fun offset left rest => ?_, by simp [hds, EndsLine]⟩
  obtain ⟨offset', more, hds, hstrip⟩ := hleaves offset
  exact ⟨offset', by rw [hstrip, hds]; simp⟩

/-- What follows a text that is left in code is read on its own. -/
theorem Leaves.stripComments_append {cs ds rest es : List Char} (h : Leaves cs ds)
    (hrest : stripComments rest = .ok es) : stripComments (cs ++ rest) = .ok (ds ++ es) := by
  obtain ⟨offset, happ⟩ := h 0 [] rest
  rw [stripComments, happ, stripFrom_eq_map, stripFrom_code_of_stripComments hrest]
  simp [Except.map]

/-- Only an open comment is an error. -/
theorem exists_of_stripFrom_error {context : Context} {offset : Nat} {left cs : List Char}
    {e : MacroError} (h : stripFrom context offset left cs = .error e) :
    ∃ start, e = .unterminated .comment start := by
  induction cs generalizing context offset left with
  | nil =>
      cases context with
      | blockComment start star =>
          cases h
          exact ⟨start, rfl⟩
      | _ => cases h
  | cons c cs ih => exact ih h

/-! ### Lines -/

/-- A line feed ends the last line of what stands before it. -/
theorem linesFrom_append_newline (line : List Char) (done : List (List Char)) (cs ds : List Char) :
    linesFrom line done (cs ++ ['\n'] ++ ds) = linesFrom line done (cs ++ ['\n']) ++ lines ds := by
  induction cs generalizing line done with
  | nil =>
      rw [List.nil_append, List.singleton_append, linesFrom, linesFrom, if_pos rfl, if_pos rfl,
        linesFrom_eq_append]
      simp [linesFrom, lines]
  | cons c cs ih =>
      rw [List.cons_append, List.cons_append, linesFrom, linesFrom]
      split
      · exact ih _ _
      · exact ih _ _

/-- **The lines of two texts are split apart** if the first one ends its line. -/
theorem lines_append {cs : List Char} (h : EndsLine cs) (ds : List Char) :
    lines (cs ++ ds) = lines cs ++ lines ds := by
  by_cases hne : cs = []
  · rw [hne]
    rfl
  · obtain ⟨body, rfl⟩ := h.exists_append hne
    exact linesFrom_append_newline [] [] body ds

/-! ### Joined sources -/

/-- A source has lines unless a comment is left open in it. -/
theorem exists_cleanLines {source : String} (h : ∀ start,
    stripComments (splice source.toList) ≠ .error (.unterminated .comment start)) :
    ∃ ls, cleanLines source = .ok ls := by
  unfold cleanLines
  cases hstrip : stripComments (splice source.toList) with
  | error e =>
      obtain ⟨start, rfl⟩ := exists_of_stripFrom_error hstrip
      exact absurd hstrip (h start)
  | ok cs => exact ⟨lines cs, rfl⟩

/-- The lines of a source that closes its line are followed by those of the next source. -/
theorem cleanLines_append {a b : String} {ls ms : List (List Char)}
    (hend : ClosesLine (splice a.toList)) (ha : cleanLines a = .ok ls)
    (hb : cleanLines b = .ok ms) : cleanLines (a ++ b) = .ok (ls ++ ms) := by
  unfold cleanLines at ha hb ⊢
  cases has : stripComments (splice a.toList) with
  | error e =>
      rw [has] at ha
      cases ha
  | ok ds =>
      cases hbs : stripComments (splice b.toList) with
      | error e =>
          rw [hbs] at hb
          cases hb
      | ok es =>
          rw [has] at ha
          rw [hbs] at hb
          cases ha
          cases hb
          obtain ⟨hleaves, hds⟩ := leaves_of_stripComments hend has
          rw [String.toList_append, splice_append hend.endsLine, hleaves.stripComments_append hbs,
            Except.map, lines_append hds]

end Source

namespace Source.Reading

/-- What is read of a source that is read completely is followed by what is read of the lines of the
next source. -/
theorem ofSource_append {a b : String} (hend : Source.ClosesLine (Source.splice a.toList))
    (ha : (ofSource a).error = none) {ms : List (List Char)} (hb : Source.cleanLines b = .ok ms) :
    ofSource (a ++ b) =
      ⟨(ofSource a).directives ++ (ofLines ms).directives, (ofLines ms).error⟩ := by
  rw [ofSource] at ha
  rw [ofSource, ofSource]
  cases hls : Source.cleanLines a with
  | error e =>
      rw [hls] at ha
      cases ha
  | ok ls =>
      rw [hls] at ha
      rw [Source.cleanLines_append hend hls hb]
      exact ofLines_append ha ms

end Source.Reading

namespace MacroTable

/-- **Joined sources are loaded one after the other.**  Let a source be empty or end in an unescaped
line feed once its continued lines are joined, let it be loaded completely, and let the next source
have no open comment.  Loading both at once leaves the table that loading them one after the other
leaves; the definitions are counted together, and the error of the second source is the error of
both, at whose line everything before it has been carried out. -/
theorem load_append (table : MacroTable) {a b : String} {n : Nat}
    (hend : Source.ClosesLine (Source.splice a.toList)) (ha : (table.load a).result = .ok n)
    (hb : ∀ start, Source.stripComments (Source.splice b.toList) ≠
      .error (.unterminated .comment start)) :
    (table.load (a ++ b)).table = ((table.load a).table.load b).table ∧
    (∀ m, ((table.load a).table.load b).result = .ok m →
      (table.load (a ++ b)).result = .ok (n + m)) ∧
    ∀ e, ((table.load a).table.load b).result = .error e →
      (table.load (a ++ b)).result = .error e ∧
      ∃ before line after, Source.cleanLines b = .ok (before ++ line :: after) ∧
        (Source.Reading.ofLines before).error = none ∧ Directive.ofLine line = .error e ∧
        (table.load (a ++ b)).table =
          (table.load a).table.performAll (Source.Reading.ofLines before).directives := by
  obtain ⟨ms, hms⟩ := Source.exists_cleanLines hb
  have hsecond : Source.Reading.ofSource b = Source.Reading.ofLines ms := by
    rw [Source.Reading.ofSource, hms]
  obtain ⟨htable, hresult⟩ := load_eq_read (table.load a).table b
  rw [hsecond] at htable hresult
  rw [(load_eq_read table a).2, Source.Reading.result_eq_ok_iff] at ha
  obtain ⟨htable', hresult'⟩ := load_eq_read table (a ++ b)
  rw [Source.Reading.ofSource_append hend ha.1 hms] at htable' hresult'
  rw [performAll_append, ← (load_eq_read table a).1] at htable'
  rw [htable, htable', hresult, hresult']
  refine ⟨rfl, fun m hm => ?_, fun e he => ?_⟩
  · rw [Source.Reading.result_eq_ok_iff] at hm ⊢
    refine ⟨hm.1, ?_⟩
    rw [← ha.2, ← hm.2]
    exact Directive.totalWeight_append _ _
  · rw [Source.Reading.result_eq_error_iff] at he
    obtain ⟨before, line, after, rfl, hbefore, hline, hdirectives⟩ :=
      Source.Reading.exists_of_ofLines_error he
    refine ⟨Source.Reading.result_eq_error_iff.2 he, before, line, after, hms, hbefore, hline, ?_⟩
    rw [hdirectives]

/-- The first source has a definition that is continued after a carriage return, with a comment sign
and an escaped quote in a literal and a comment over two lines; the second one is wrong at its
second line.  What stands before that line has taken effect, and nothing after it. -/
theorem load_append_stopped :
    ∃ a b : String,
      a = "#define A \\\r\n\"//\\\"\" /* one\ntwo */\n" ∧
      b = "#define B 2\n#define (\n#define C 3" ∧
      Source.ClosesLine (Source.splice a.toList) ∧ (MacroTable.empty.load a).result = .ok 1 ∧
      (∀ start, Source.stripComments (Source.splice b.toList) ≠
        .error (.unterminated .comment start)) ∧
      ((MacroTable.empty.load a).table.load b).result =
        .error (.malformedDefinition (.nameExpected "(")) ∧
      (MacroTable.empty.load (a ++ b)).result =
        .error (.malformedDefinition (.nameExpected "(")) ∧
      (MacroTable.empty.load (a ++ b)).table = ((MacroTable.empty.load a).table.load b).table ∧
      (MacroTable.empty.load (a ++ b)).table["A"]? =
        some ⟨"A", none, false, [⟨.literal, "\"//\\\"\"", false⟩]⟩ ∧
      (MacroTable.empty.load (a ++ b)).table["B"]? = some ⟨"B", none, false, [.number "2"]⟩ ∧
      (MacroTable.empty.load (a ++ b)).table["C"]? = none := by
  refine ⟨_, _, rfl, rfl, ?_⟩
  generalize ha : "#define A \\\r\n\"//\\\"\" /* one\ntwo */\n" = a
  generalize hb : "#define B 2\n#define (\n#define C 3" = b
  have hend : Source.ClosesLine (Source.splice a.toList) := by
    refine .inr ⟨(Source.splice a.toList).dropLast, ?_⟩
    rw [← ha]
    decide +kernel
  have hfirst : (MacroTable.empty.load a).result = .ok 1 := by
    rw [(load_eq_read _ a).2, Source.Reading.result_eq_ok_iff, ← ha]
    decide +kernel
  have hclosed : ∀ start, Source.stripComments (Source.splice b.toList) ≠
      .error (.unterminated .comment start) := by
    have hsame : Source.stripComments (Source.splice b.toList) = .ok b.toList := by
      rw [← hb]
      decide +kernel
    intro start hopen
    rw [hopen] at hsame
    cases hsame
  have hsecond : ((MacroTable.empty.load a).table.load b).result =
      .error (.malformedDefinition (.nameExpected "(")) := by
    rw [(load_eq_read _ b).2, Source.Reading.result_eq_error_iff, ← hb]
    decide +kernel
  obtain ⟨htable, -, herror⟩ := load_append .empty hend hfirst hclosed
  have hread := (load_eq_read .empty (a ++ b)).1
  have hdirectives : (Source.Reading.ofSource (a ++ b)).directives =
      [.define ⟨"A", none, false, [⟨.literal, "\"//\\\"\"", false⟩]⟩,
        .define ⟨"B", none, false, [.number "2"]⟩] := by
    rw [← ha, ← hb]
    decide +kernel
  rw [hdirectives] at hread
  refine ⟨hend, hfirst, hclosed, hsecond, (herror _ hsecond).1, htable, ?_, ?_, ?_⟩
  all_goals
    rw [hread, getElem?_performAll]
    decide +kernel

end MacroTable

end VariadicMacros
