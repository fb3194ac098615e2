/-
**Texts are expanded one after the other.**

A scan goes from left to right, and what it has put out is not looked at again.  A call that starts
in a text may end in the text after it.  It does not when the first text is expanded on its own
without an error and the second one does not open with a parenthesis: the scan of both texts then
comes to the boundary with what it makes of the first text, and goes on with the second text as if
it began there.

The space between the two texts is seen in one place only, the mark of the first token that the
second text puts out.

Main definitions:

* `VariadicMacros.Scan.shown` — the words that a scan puts out and the invocations that it counts.

Main results:

* `VariadicMacros.Scan.run_append` — a scan comes to the boundary of two texts;
* `VariadicMacros.Scan.shown_run_respace` — the mark of its first token does not change what a text
  expands to;
* `VariadicMacros.MacroTable.expand_append_space` — **expansion is a homomorphism** away from a
  call that crosses the boundary.
-/

import VariadicMacros.Proofs.LexicalGrammar
import VariadicMacros.Proofs.RaisedLimits

set_option autoImplicit false

namespace VariadicMacros

/-- An argument list that has an end is read in the same way when more text follows. -/
theorem Invocation.readFrom_append_text {nesting : Nat} {current : List Painted}
    {done : List (List Painted)} {text : List Painted} {list : ArgumentList}
    (h : readFrom nesting current done text = some list) (more : List Painted) :
    readFrom nesting current done (text ++ more) =
      some { list with rest := list.rest ++ more } := by
  induction text generalizing nesting current done with
  | nil => cases h
  | cons t rest ih =>
      rw [readFrom.eq_def] at h
      rw [List.cons_append, readFrom.eq_def]
      simp only at h ⊢
      split
      · next hopen =>
        rw [if_pos hopen] at h
        exact ih h
      · next hopen =>
        rw [if_neg hopen] at h
        split
        · next hclose =>
          rw [if_pos hclose] at h
          cases nesting with
          | zero =>
              cases h
              rfl
          | succ nesting => exact ih h
        · next hclose =>
          rw [if_neg hclose] at h
          split
          · next hcomma =>
            rw [if_pos hcomma] at h
            exact ih h
          · next hcomma =>
            rw [if_neg hcomma] at h
            exact ih h

namespace Scan

variable {table : MacroTable} {limits : Limits} {supply level steps : Nat}
  {out out' text more : List Painted}

/-! ### Up to the boundary -/

theorem stopAt?_ne_finished (p : Painted) (rest : List Painted) :
    stopAt? table p rest ≠ some .finished := by
  unfold stopAt?
  split
  · simp
  · split
    · split
      · simp
      · split
        · split <;> simp
        · simp
    · simp

/-- A call that ends in a text ends there when more text follows. -/
theorem stopAt?_append_of_call {p : Painted} {rest : List Painted} {c : Call}
    (h : stopAt? table p rest = some (.call c)) (more : List Painted) :
    stopAt? table p (rest ++ more) = some (.call { c with rest := c.rest ++ more }) := by
  unfold stopAt? at h ⊢
  cases hd : definition? table p with
  | none =>
      rw [hd] at h
      cases h
  | some d =>
      simp only [hd] at h ⊢
      split at h
      · next hfunction =>
        rw [if_pos hfunction]
        cases rest with
        | nil => cases h
        | cons next after =>
            rw [List.cons_append]
            simp only at h ⊢
            split at h
            · next hopen =>
              rw [if_pos hopen]
              cases hread : Invocation.readArguments after with
              | none =>
                  rw [hread] at h
                  cases h
              | some list =>
                  rw [hread] at h
                  cases h
                  have hmore : Invocation.readArguments (after ++ more) =
                      some { list with rest := list.rest ++ more } :=
                    Invocation.readFrom_append_text hread more
                  rw [hmore]
            · cases h
      · next hobject =>
        cases h
        rw [if_neg hobject]

/-- A token that is not called stays so when more text follows, unless that opens its
arguments. -/
theorem stopAt?_append_of_none {p : Painted} {rest : List Painted}
    (h : stopAt? table p rest = none) (hmore : ∀ q ∈ more.head?, q.isMark "(" = false) :
    stopAt? table p (rest ++ more) = none := by
  unfold stopAt? at h ⊢
  cases hd : definition? table p with
  | none => rfl
  | some d =>
      simp only [hd] at h ⊢
      split at h
      · next hfunction =>
        rw [if_pos hfunction]
        cases rest with
        | nil =>
            cases more with
            | nil => rfl
            | cons q more =>
                have hq : q.isMark "(" = false := hmore q rfl
                simp [hq]
        | cons next after =>
            rw [List.cons_append]
            simp only at h ⊢
            split at h
            · cases hread : Invocation.readArguments after with
              | none =>
                  rw [hread] at h
                  cases h
              | some list =>
                  rw [hread] at h
                  cases h
            · next hopen => rw [if_neg hopen]
      · cases h

/-- A scan that finds a call in a text finds it when more text follows. -/
theorem advance_append_of_call {c : Call} (h : advance table out text = (out', .call c))
    (hmore : ∀ q ∈ more.head?, q.isMark "(" = false) :
    advance table out (text ++ more) = (out', .call { c with rest := c.rest ++ more }) := by
  induction text generalizing out with
  | nil => cases h
  | cons p rest ih =>
      rw [advance_cons] at h
      rw [List.cons_append, advance_cons]
      cases hstop : stopAt? table p rest with
      | none =>
          rw [hstop] at h
          rw [stopAt?_append_of_none hstop hmore]
          exact ih h
      | some stop =>
          rw [hstop] at h
          cases h
          rw [stopAt?_append_of_call hstop more]

/-- A scan that meets no call in a text goes on with the text that follows. -/
theorem advance_append_of_finished (h : advance table out text = (out', .finished))
    (hmore : ∀ q ∈ more.head?, q.isMark "(" = false) :
    advance table out (text ++ more) = advance table out' more := by
  induction text generalizing out with
  | nil =>
      cases h
      rfl
  | cons p rest ih =>
      rw [advance_cons] at h
      cases hstop : stopAt? table p rest with
      | none =>
          rw [hstop] at h
          rw [List.cons_append, advance_cons, stopAt?_append_of_none hstop hmore]
          exact ih h
      | some stop =>
          rw [hstop] at h
          cases h
          exact absurd hstop (stopAt?_ne_finished p rest)

/-- **A scan comes to the boundary of two texts** with what it makes of the first one, and goes on
from there. -/
theorem run_append {done : List Painted} {n : Nat}
    (h : run table limits supply level steps out text = .ok (done, n))
    (hmore : ∀ q ∈ more.head?, q.isMark "(" = false) :
    ∃ supply' ≤ supply, run table limits supply level steps out (text ++ more) =
      run table limits supply' level n done.reverse more := by
  induction supply using Nat.strongRecOn generalizing steps out text with
  | _ supply ih =>
      rcases hadvance : advance table out text with ⟨out', stop⟩
      cases stop with
      | finished =>
          rw [run_of_finished hadvance] at h
          cases h
          refine ⟨supply, Nat.le_refl _, ?_⟩
          rw [run.eq_def, advance_append_of_finished hadvance hmore, List.reverse_reverse,
            ← run.eq_def]
      | unterminated d =>
          rw [run_of_unterminated hadvance] at h
          cases h
      | call c =>
          obtain ⟨supply, actuals, replaced, rfl, hroom, hactuals, hreplaced, h⟩ :=
            exists_of_run_call hadvance h
          obtain ⟨supply', hle, hrun⟩ := ih supply (Nat.lt_succ_self _) h
          refine ⟨supply', Nat.le_succ_of_le hle, ?_⟩
          rw [run_of_call_eq_bind (advance_append_of_call hadvance hmore) hroom]
          simp only [hactuals, hreplaced, Except.bind]
          rw [← List.append_assoc, hrun]

/-- The second text is scanned as if it began there, unless a limit cuts the scan of both. -/
theorem run_append_eq_resumed {done : List Painted} {n : Nat}
    (h : run table limits limits.steps level 0 [] text = .ok (done, n))
    (hmore : ∀ q ∈ more.head?, q.isMark "(" = false)
    (huncut : Uncut (run table limits limits.steps level 0 [] (text ++ more))) :
    run table limits limits.steps level 0 [] (text ++ more) =
      resumed done n (run table limits limits.steps level 0 [] more) := by
  obtain ⟨supply, hle, hrun⟩ := run_append h hmore
  rw [hrun] at huncut ⊢
  have hparallel : Parallel (resume done.reverse.reverse n) (resume [].reverse 0)
      (run table limits supply level (n + 0) ([] ++ done.reverse) more)
      (run table limits limits.steps level (0 + 0) ([] ++ []) more) :=
    parallel_run (by omega) (Nat.le_refl _) hle 0 [] done.reverse [] more
  rw [List.reverse_reverse] at hparallel
  obtain ⟨r, hr, hr'⟩ := hparallel huncut
  have hr' : run table limits limits.steps level 0 [] more = r := hr'.trans (resumed_nil_zero r)
  rw [hr']
  exact hr

/-! ### The space at the boundary -/

/-- What a scan shows: the words that it puts out and the invocations that it counts. -/
def shown (r : Except MacroError (List Painted × Nat)) : Except MacroError (List Word × Nat) :=
  r.map fun x => (x.1.map Painted.word, x.2)

/-- What becomes of a token does not depend on its space mark. -/
theorem stopAt?_spaced (b : Bool) (p : Painted) (rest : List Painted) :
    stopAt? table { p with spaced := b } rest =
      match stopAt? table p rest with
      | some (.call c) => some (.call { c with token := { p with spaced := b } })
      | stop => stop := by
  unfold stopAt?
  rw [show definition? table { p with spaced := b } = definition? table p from rfl]
  cases definition? table p with
  | none => rfl
  | some d =>
      simp only
      split
      · cases rest with
        | nil => rfl
        | cons next after =>
            simp only
            split
            · cases Invocation.readArguments after <;> rfl
            · rfl
      · rfl

/-- A token that is not called is put out. -/
theorem run_cons_of_none {p : Painted} {rest : List Painted} (h : stopAt? table p rest = none) :
    run table limits supply level steps out (p :: rest) =
      run table limits supply level steps (p :: out) rest := by
  rw [run.eq_def, advance_cons, h, ← run.eq_def]

/-- What was put out before is shown in front of what a scan puts out after it. -/
theorem shown_run_cons {p q : Painted} (hword : p.word = q.word)
    (h : Uncut (run table limits supply level steps (p :: out) text)) :
    shown (run table limits supply level steps (q :: out) text) =
      shown (run table limits supply level steps (p :: out) text) := by
  have hparallel : Parallel (resume (p :: out).reverse 0) (resume (q :: out).reverse 0)
      (run table limits supply level (0 + steps) ([] ++ p :: out) text)
      (run table limits supply level (0 + steps) ([] ++ q :: out) text) :=
    parallel_run (Nat.le_refl _) (Nat.le_refl _) (Nat.le_refl _) steps [] (p :: out) (q :: out) text
  rw [Nat.zero_add, List.nil_append, List.nil_append] at hparallel
  obtain ⟨x, hp, hq⟩ := hparallel h
  rw [hp, hq]
  cases x with
  | error e => rfl
  | ok r => simp [shown, resume, Except.map, hword]

theorem shown_bind {α : Type} {x : Except MacroError α}
    {next next' : α → Except MacroError (List Painted × Nat)} (h : Uncut (x.bind next'))
    (hnext : ∀ a, Uncut (next' a) → shown (next a) = shown (next' a)) :
    shown (x.bind next) = shown (x.bind next') := by
  cases x with
  | error e => rfl
  | ok a => exact hnext a h

/-- **The mark of its first token does not change what a text shows.** -/
theorem shown_run_respace (b : Bool)
    (h : Uncut (run table limits supply level steps out (Painted.respace b text))) :
    shown (run table limits supply level steps out text) =
      shown (run table limits supply level steps out (Painted.respace b text)) := by
  induction supply using Nat.strongRecOn generalizing b steps text with
  | _ supply ih =>
      cases text with
      | nil => rfl
      | cons p rest =>
          obtain ⟨q, hq⟩ : ∃ q, q = { p with spaced := b } := ⟨_, rfl⟩
          rw [Painted.respace, ← hq] at h ⊢
          have hspaced : stopAt? table { p with spaced := b } rest = _ := stopAt?_spaced b p rest
          rw [← hq] at hspaced
          cases hstop : stopAt? table p rest with
          | none =>
              rw [hstop] at hspaced
              rw [run_cons_of_none hspaced] at h ⊢
              rw [run_cons_of_none hstop]
              exact shown_run_cons (hq ▸ rfl) h
          | some stop =>
              have hadvance : advance table out (p :: rest) = (out, stop) := by
                rw [advance_cons, hstop]
              rw [hstop] at hspaced
              cases stop with
              | finished => exact absurd hstop (stopAt?_ne_finished p rest)
              | unterminated d =>
                  have hadvance' : advance table out (q :: rest) = (out, .unterminated d) := by
                    rw [advance_cons, hspaced]
                  rw [run_of_unterminated hadvance, run_of_unterminated hadvance']
              | call c =>
                  have hadvance' : advance table out (q :: rest) =
                      (out, .call { c with token := q }) := by
                    rw [advance_cons, hspaced]
                  obtain ⟨hroom, supply, rfl⟩ := exists_room_of_uncut hadvance' h
                  rw [run_of_call_eq_bind hadvance' hroom] at h ⊢
                  rw [run_of_call_eq_bind hadvance hroom]
                  refine shown_bind h fun actuals h => shown_bind h fun r h => ?_
                  -- The mark goes to what replaces the call, or nowhere.
                  rcases r with ⟨_ | ⟨first, replacement⟩, n⟩
                  · rfl
                  · exact ih supply (Nat.lt_succ_self _) q.spaced h

/-- **What a scan shows of two texts** is what it shows of the first one and, after it, of the
second one. -/
theorem shown_run_append {done : List Painted} {n : Nat}
    (h : run table limits limits.steps level 0 [] text = .ok (done, n))
    (hmore : ∀ q ∈ more.head?, q.isMark "(" = false) (b : Bool)
    (huncut : Uncut (run table limits limits.steps level 0 [] (text ++ Painted.respace b more))) :
    shown (run table limits limits.steps level 0 [] (text ++ Painted.respace b more)) =
      (shown (run table limits limits.steps level 0 [] more)).map fun x =>
        (done.map Painted.word ++ x.1, n + x.2) := by
  have hspaced : ∀ q ∈ (Painted.respace b more).head?, q.isMark "(" = false := by
    cases more with
    | nil => simp [Painted.respace]
    | cons q more => simpa [Painted.respace, Token.isMark] using hmore
  have hrun := run_append_eq_resumed h hspaced huncut
  have hmark : shown (run table limits limits.steps level 0 [] more) =
      shown (run table limits limits.steps level 0 [] (Painted.respace b more)) :=
    shown_run_respace b (uncut_of_map (hrun ▸ huncut))
  rw [hrun, hmark]
  cases run table limits limits.steps level 0 [] (Painted.respace b more) with
  | error e => rfl
  | ok x => simp [shown, Except.map]

end Scan

/-! ### Expansions -/

namespace MacroTable

/-- What an expansion shows is what its scan shows. -/
theorem shown_expandTokens (table : MacroTable) (limits : Limits) (tokens : List Token) :
    (table.expandTokens limits tokens).map (fun e => (e.words, e.steps)) =
      Scan.shown (Scan.run table limits limits.steps 0 0 [] (tokens.map Painted.plain)) := by
  rw [expandTokens_eq_map]
  cases Scan.run table limits limits.steps 0 0 [] (tokens.map Painted.plain) with
  | error e => rfl
  | ok x => simp [Scan.shown, Except.map, Expansion.words, Painted.word]

/-- **Expansion is a homomorphism away from a call that crosses the boundary.**  When a text is
expanded without an error and the next one does not open with a parenthesis, the two of them with
a space between expand to the words of the first one and those of the second one after them, and
their invocations add up; and where the second one fails, they fail for the same cause. -/
theorem expand_append_space (table : MacroTable) (limits : Limits) {u v : String} {a : Expansion}
    {tokens : List Token} (hu : table.expand limits u = .ok a) (hv : Token.lex v = .ok tokens)
    (hopen : ∀ t ∈ tokens.head?, t.isMark "(" = false)
    (hstep : ∀ limit, table.expand limits (u ++ " " ++ v) ≠ .error (.stepLimit limit))
    (hdepth : ∀ limit, table.expand limits (u ++ " " ++ v) ≠ .error (.depthLimit limit)) :
    (table.expand limits (u ++ " " ++ v)).map (fun e => (e.words, e.steps)) =
      (table.expand limits v).map fun b => (a.words ++ b.words, a.steps + b.steps) := by
  have huncut : Scan.Uncut (table.expand limits (u ++ " " ++ v)) := Scan.uncut_iff.2 ⟨hstep, hdepth⟩
  obtain ⟨before, x, hlex, hrun, rfl⟩ := exists_of_expand hu
  have hjoined := Token.lex_append_space hlex hv
  rw [expand_of_lex hjoined, expandTokens_eq_map] at huncut
  rw [expand_of_lex hjoined, shown_expandTokens, expand_of_lex hv]
  have hspaced : (before ++ Token.respace true tokens).map Painted.plain =
      before.map Painted.plain ++ Painted.respace true (tokens.map Painted.plain) := by
    cases tokens <;> simp [Painted.respace, Painted.plain]
  have hhead : ∀ q ∈ (tokens.map Painted.plain).head?, q.isMark "(" = false := by
    simpa [Painted.plain] using hopen
  rw [hspaced] at huncut ⊢
  rw [Scan.shown_run_append hrun hhead true (Scan.uncut_of_map huncut), ← shown_expandTokens]
  cases table.expandTokens limits tokens with
  | error e => rfl
  | ok b => simp [Except.map, Expansion.words, Painted.word]

/-- A text that ends with the name of a function-like macro, and a call after it. -/
theorem expand_append_space_name :
    ∃ table : MacroTable, table["F"]? = some ⟨"F", some ["x"], false, [.name "x"]⟩ ∧
      table.expand ⟨10, 2⟩ "F(1) F" = .ok ⟨[.number "1", (Token.name "F").afterSpace], 1⟩ ∧
      table.expand ⟨10, 2⟩ "F(2)" = .ok ⟨[.number "2"], 1⟩ ∧
      (table.expand ⟨10, 2⟩ ("F(1) F" ++ " " ++ "F(2)")).map (fun e => (e.words, e.steps)) =
        .ok ([.number "1", .name "F", .number "2"], 2) := by
  refine ⟨MacroTable.empty.define ⟨"F", some ["x"], false, [.name "x"]⟩, ?_, ?_⟩
  · simp [getElem?_define]
  · have hu : (MacroTable.empty.define ⟨"F", some ["x"], false, [.name "x"]⟩).expand ⟨10, 2⟩
        "F(1) F" = .ok ⟨[.number "1", (Token.name "F").afterSpace], 1⟩ := by cbv
    have hv : (MacroTable.empty.define ⟨"F", some ["x"], false, [.name "x"]⟩).expand ⟨10, 2⟩
        "F(2)" = .ok ⟨[.number "2"], 1⟩ := by cbv
    have hlex : Token.lex "F(2)" = .ok [.name "F", .mark "(", .number "2", .mark ")"] := by cbv
    have hjoined : (MacroTable.empty.define ⟨"F", some ["x"], false, [.name "x"]⟩).expand ⟨10, 2⟩
        ("F(1) F" ++ " " ++ "F(2)") = .ok ⟨[.number "1", (Token.name "F").afterSpace,
          (Token.number "2").afterSpace], 2⟩ := by cbv
    have happend := expand_append_space _ _ hu hlex (by simp [Token.isMark, Token.name])
      (fun limit hcut => by cases hjoined.symm.trans hcut)
      (fun limit hcut => by cases hjoined.symm.trans hcut)
    rw [hv] at happend
    exact ⟨hu, hv, happend⟩

end MacroTable

end VariadicMacros
