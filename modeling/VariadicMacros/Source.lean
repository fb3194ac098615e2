/-
**Source text before its directives are read: continued lines and comments.**

Before the directives of a source are looked at, lines that end in a backslash are joined with
the next line and comments are taken out: a comment that has an end of its own is replaced by one
space, and of a comment that ends with its line only the line feed is left.  A comment sign inside a
string or a character literal is text.

Main definitions:

* `VariadicMacros.Source.splice` — joins continued lines;
* `VariadicMacros.Source.Context.next`, `VariadicMacros.Source.Context.leave` — the context after a
  character, and what is left of the character;
* `VariadicMacros.Source.stripComments` — replaces comments;
* `VariadicMacros.Source.lines` — splits a text at its line ends;
* `VariadicMacros.Source.foldLines` — goes over the lines of a source in one pass.

Main results:

* `VariadicMacros.Source.stripFrom_code_cons` — a character that starts nothing is kept;
* `VariadicMacros.Source.foldLines_eq` — the one pass gives what joining, replacing and splitting
  give one after the other.
-/

import VariadicMacros.MacroError

set_option autoImplicit false

namespace VariadicMacros.Source

/-! ### Continued lines -/

/-- Removes every backslash that stands before a carriage return and a line feed, with both. -/
def spliceReturns (done : List Char) : List Char → List Char
  | [] => done.reverse
  | '\\' :: '\r' :: '\n' :: cs => spliceReturns done cs
  | c :: cs => spliceReturns (c :: done) cs

/-- Removes every backslash that stands before a line feed, with the line feed. -/
def spliceFeeds (done : List Char) : List Char → List Char
  | [] => done.reverse
  | '\\' :: '\n' :: cs => spliceFeeds done cs
  | c :: cs => spliceFeeds (c :: done) cs

/-- Joins continued lines; either line end may follow the backslash. -/
def splice (cs : List Char) : List Char := spliceFeeds [] (spliceReturns [] cs)

/-! ### Comments -/

/-- What the next character of a source stands in. -/
inductive Context
  /-- Outside of comments and literals. -/
  | code
  /-- After a slash, at a byte offset, that may begin a comment. -/
  | slash (start : Nat)
  /-- In a comment that ends with its line. -/
  | lineComment
  /-- In a comment that ends with `*/` and whose slash is at a byte offset; `star` says whether
  the character before is a star that may begin its end. -/
  | blockComment (start : Nat) (star : Bool)
  /-- In a literal; `escaped` says whether a backslash stands before. -/
  | literal (quote : Char) (escaped : Bool)
  deriving DecidableEq, Repr

namespace Context

/-- What the character after `c` stands in, when `c` is outside of comments and begins none. -/
def opened (c : Char) : Context := if c = '"' ∨ c = '\'' then .literal c false else .code

/-- What the character after `c` stands in, when `c` is at byte `offset`. -/
@[inline] def next (context : Context) (offset : Nat) (c : Char) : Context :=
  match context with
  | .code => if c = '/' then .slash offset else opened c
  | .slash start =>
    if c = '/' then .lineComment
    else if c = '*' then .blockComment start false
    else opened c
  | .lineComment => if c = '\n' then .code else .lineComment
  | .blockComment start star => if star ∧ c = '/' then .code else .blockComment start (c = '*')
  | .literal quote escaped =>
    if escaped then .literal quote false
    else if c = '\\' then .literal quote true
    else if c = quote ∨ c = '\n' then .code
    else .literal quote false

/-- Adds what is left of the character `c` to what is left of the text before it, which stands in
`left` with the last character first.  A slash waits for the character after it. -/
@[inline] def leave (context : Context) (c : Char) (left : List Char) : List Char :=
  match context with
  | .code => if c = '/' then left else c :: left
  | .slash _ => if c = '/' ∨ c = '*' then left else c :: '/' :: left
  | .lineComment => if c = '\n' then c :: left else left
  | .blockComment _ star => if star ∧ c = '/' then ' ' :: left else left
  | .literal _ _ => c :: left

/-- Takes the end of the text. -/
def finish (context : Context) (left : List Char) : Except MacroError (List Char) :=
  match context with
  | .slash _ => .ok ('/' :: left)
  | .blockComment start _ => .error (.unterminated .comment start)
  | .code => .ok left
  | .lineComment => .ok left
  | .literal _ _ => .ok left

end Context

/-- Replaces the comments of a text that starts at byte `offset`; `left` holds what is left of
the text before, the last character first. -/
def stripFrom (context : Context) (offset : Nat) (left : List Char) :
    List Char → Except MacroError (List Char)
  | [] => (context.finish left).map List.reverse
  | c :: cs =>
    stripFrom (context.next offset c) (offset + c.utf8Size) (context.leave c left) cs

/-- Replaces the comments of a text by one space each; of a comment that ends with its line nothing
but the line feed is left. -/
def stripComments (cs : List Char) : Except MacroError (List Char) := stripFrom .code 0 [] cs

/-- A character that starts neither a comment nor a literal is kept. -/
theorem stripFrom_code_cons {c : Char} (h : c ≠ '/') (hq : ¬ (c = '"' ∨ c = '\''))
    (offset : Nat) (left cs : List Char) :
    stripFrom .code offset left (c :: cs) =
      stripFrom .code (offset + c.utf8Size) (c :: left) cs := by
  simp [stripFrom, Context.next, Context.leave, Context.opened, h, hq]

/-! ### Lines -/

/-- The characters of a line without the carriage return before its line feed; `line` holds them
with the last one first. -/
def withoutReturn (line : List Char) : List Char :=
  match line with
  | '\r' :: line => line.reverse
  | line => line.reverse

/-- Splits a text into lines; `line` holds the current line with the last character first, and
`done` the lines before it with the last one first. -/
def linesFrom (line : List Char) (done : List (List Char)) : List Char → List (List Char)
  | [] => if line.isEmpty then done.reverse else (line.reverse :: done).reverse
  | c :: cs =>
    if c = '\n' then linesFrom [] (withoutReturn line :: done) cs
    else linesFrom (c :: line) done cs

/-- The lines of a text, each without its line end. -/
def lines (cs : List Char) : List (List Char) := linesFrom [] [] cs

theorem linesFrom_eq_append (line : List Char) (done : List (List Char)) (cs : List Char) :
    linesFrom line done cs = done.reverse ++ linesFrom line [] cs := by
  induction cs generalizing line done with
  | nil => simp only [linesFrom]; split <;> simp
  | cons c cs ih =>
      rw [linesFrom, linesFrom]
      split
      · rw [ih, ih [] [withoutReturn line]]
        simp
      · rw [ih]

/-- Characters other than line feeds belong to the current line. -/
theorem linesFrom_append {cs : List Char} (h : '\n' ∉ cs) (line : List Char)
    (done : List (List Char)) (ds : List Char) :
    linesFrom line done (cs ++ ds) = linesFrom (cs.reverse ++ line) done ds := by
  induction cs generalizing line with
  | nil => rfl
  | cons c cs ih =>
      simp only [List.mem_cons, not_or] at h
      rw [List.cons_append, linesFrom, if_neg (Ne.symm h.1), ih h.2]
      simp

/-- A line feed ends the current line. -/
theorem linesFrom_newline (line : List Char) (cs : List Char) :
    linesFrom line [] ('\n' :: cs) = withoutReturn line :: linesFrom [] [] cs := by
  rw [linesFrom, if_pos rfl, linesFrom_eq_append]
  simp

/-! ### Going over the lines of a source -/

/-- A source with its continued lines joined; without a backslash there are none. -/
def spliced (source : String) : String :=
  if source.contains '\\' then String.ofList (splice source.toList) else source

/-- How far a source has been read. -/
structure Pass (α : Type) where
  context : Context
  /-- The byte offset of the next character. -/
  offset : Nat
  /-- What is left of the current line, the last character first. -/
  line : List Char
  /-- What the lines before the current one were folded to. -/
  result : α

namespace Pass

variable {α : Type}

/-- Reads a character. -/
def feed (f : α → List Char → α) (p : Pass α) (c : Char) : Pass α :=
  let context := p.context.next p.offset c
  let offset := p.offset + c.utf8Size
  match p.context.leave c p.line with
  | '\n' :: line => ⟨context, offset, [], f p.result (withoutReturn line)⟩
  | line => ⟨context, offset, line, p.result⟩

/-- Reads the end of the text. -/
def finish (f : α → List Char → α) (p : Pass α) : Except MacroError α :=
  match p.context.finish p.line with
  | .error e => .error e
  | .ok line => .ok (if line.isEmpty then p.result else f p.result line.reverse)

end Pass

/-- Folds the lines of a source, with continued lines joined and comments replaced.  The source is
read once, and only its current line is held as characters. -/
def foldLines {α : Type} (f : α → List Char → α) (init : α) (source : String) :
    Except MacroError α :=
  ((spliced source).foldl (Pass.feed f) ⟨.code, 0, [], init⟩).finish f

theorem spliceReturns_of_notMem {cs : List Char} (h : '\\' ∉ cs) (done : List Char) :
    spliceReturns done cs = done.reverse ++ cs := by
  induction cs generalizing done with
  | nil => simp [spliceReturns]
  | cons c cs ih =>
      simp only [List.mem_cons, not_or] at h
      rw [spliceReturns, ih h.2]
      · simp
      · rintro _ rfl _
        exact h.1 rfl

theorem spliceFeeds_of_notMem {cs : List Char} (h : '\\' ∉ cs) (done : List Char) :
    spliceFeeds done cs = done.reverse ++ cs := by
  induction cs generalizing done with
  | nil => simp [spliceFeeds]
  | cons c cs ih =>
      simp only [List.mem_cons, not_or] at h
      rw [spliceFeeds, ih h.2]
      · simp
      · rintro _ rfl _
        exact h.1 rfl

/-- Without a backslash there is nothing to join. -/
theorem splice_of_notMem {cs : List Char} (h : '\\' ∉ cs) : splice cs = cs := by
  rw [splice, spliceReturns_of_notMem h]
  exact spliceFeeds_of_notMem h []

@[simp] theorem toList_spliced (source : String) :
    (spliced source).toList = splice source.toList := by
  unfold spliced
  split
  · exact String.toList_ofList
  · next h =>
    rw [String.contains_char_eq, decide_eq_true_eq] at h
    exact (splice_of_notMem h).symm

namespace Context

theorem leave_eq_append (context : Context) (c : Char) (left : List Char) :
    context.leave c left = context.leave c [] ++ left := by
  cases context <;> simp only [leave] <;> (try split) <;> rfl

/-- What is left of a character is at most that character after a slash. -/
theorem newline_notMem_tail_leave (context : Context) (c : Char) :
    '\n' ∉ (context.leave c []).tail := by
  cases context <;> simp only [leave] <;> (try split) <;> simp

theorem finish_eq_map (context : Context) (left : List Char) :
    context.finish left = (context.finish []).map (· ++ left) := by
  cases context <;> rfl

end Context

theorem stripFrom_eq_map (context : Context) (offset : Nat) (left cs : List Char) :
    stripFrom context offset left cs =
      (stripFrom context offset [] cs).map (left.reverse ++ ·) := by
  induction cs generalizing context offset left with
  | nil =>
      rw [stripFrom, stripFrom, Context.finish_eq_map]
      cases context.finish [] <;> simp [Except.map]
  | cons c cs ih =>
      rw [stripFrom, stripFrom, ih, ih _ _ (context.leave c []), Context.leave_eq_append]
      cases stripFrom (context.next offset c) (offset + c.utf8Size) [] cs <;> simp [Except.map]

/-- Reading a character in terms of what is left of it alone. -/
theorem feed_eq {α : Type} (f : α → List Char → α) (context : Context) (offset : Nat)
    {line : List Char} (hline : '\n' ∉ line) (result : α) (c : Char) :
    Pass.feed f ⟨context, offset, line, result⟩ c =
      match context.leave c [] with
      | [] => ⟨context.next offset c, offset + c.utf8Size, line, result⟩
      | d :: kept =>
        if d = '\n' then
          ⟨context.next offset c, offset + c.utf8Size, [], f result (withoutReturn (kept ++ line))⟩
        else ⟨context.next offset c, offset + c.utf8Size, d :: (kept ++ line), result⟩ := by
  rw [Pass.feed]
  simp only
  rw [Context.leave_eq_append]
  cases context.leave c [] with
  | nil =>
      cases line with
      | nil => rfl
      | cons b line =>
          simp only [List.mem_cons, not_or] at hline
          simp only [List.nil_append]
          split
          · next h =>
            cases h
            exact absurd rfl hline.1
          · rfl
  | cons d kept =>
      simp only [List.cons_append]
      split
      · next h =>
        cases h
        simp
      · next h =>
        rw [if_neg]
        rintro rfl
        exact h _ rfl

/-- Reading the characters one by one gives the lines of the text without comments. -/
theorem finish_foldl_feed {α : Type} (f : α → List Char → α) (context : Context) (offset : Nat)
    {line : List Char} (hline : '\n' ∉ line) (result : α) (cs : List Char) :
    (cs.foldl (Pass.feed f) ⟨context, offset, line, result⟩).finish f =
      (stripFrom context offset [] cs).map fun rest =>
        (linesFrom line [] rest).foldl f result := by
  induction cs generalizing context offset line result with
  | nil =>
      rw [List.foldl_nil, stripFrom, Pass.finish]
      cases line <;> cases context <;> simp [Context.finish, Except.map, linesFrom]
  | cons c cs ih =>
      rw [List.foldl_cons, stripFrom, stripFrom_eq_map, feed_eq f _ _ hline]
      have htail := Context.newline_notMem_tail_leave context c
      cases hkept : context.leave c [] with
      | nil =>
          rw [ih _ _ hline]
          cases stripFrom (context.next offset c) (offset + c.utf8Size) [] cs <;>
            simp [Except.map]
      | cons d kept =>
          rw [hkept, List.tail_cons] at htail
          have hkeptLine : '\n' ∉ kept ++ line := by simp [htail, hline]
          have hreverse : '\n' ∉ kept.reverse := by simpa using htail
          dsimp only
          by_cases hd : d = '\n'
          · subst hd
            rw [if_pos rfl, ih _ _ (by simp)]
            cases stripFrom (context.next offset c) (offset + c.utf8Size) [] cs with
            | error e => rfl
            | ok rest =>
                simp [Except.map, linesFrom_append hreverse, linesFrom_newline]
          · have hdLine : '\n' ∉ d :: (kept ++ line) := by
              simp only [List.mem_cons, not_or]
              exact ⟨Ne.symm hd, hkeptLine⟩
            rw [if_neg hd, ih _ _ hdLine]
            cases stripFrom (context.next offset c) (offset + c.utf8Size) [] cs with
            | error e => rfl
            | ok rest =>
                simp [Except.map, linesFrom_append hreverse, linesFrom, hd]

/-- **One pass is enough**: folding the lines of a source is folding the lines of its text with
continued lines joined and comments replaced. -/
theorem foldLines_eq {α : Type} (f : α → List Char → α) (init : α) (source : String) :
    foldLines f init source =
      (stripComments (splice source.toList)).map fun cs => (lines cs).foldl f init := by
  rw [foldLines, String.foldl_eq_foldl_toList, toList_spliced, finish_foldl_feed f _ _ (by simp)]
  rfl

end VariadicMacros.Source
