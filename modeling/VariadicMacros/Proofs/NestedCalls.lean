/-
**How deep calls may be nested in arguments.**

A macro that gives its argument back is called on a call of itself, and so on.  Every call counts
one invocation when it is met, and its argument is scanned one level deeper before it is filled in.
What a call gives back is scanned once more, on the level of the call, and invokes nothing.  So
some number of nested calls needs just as many invocations and just as many levels, and the limit
that is met first on the way to the innermost call tells which error there is.

Main definitions:

* `VariadicMacros.Definition.identity` — a macro that gives its argument back;
* `VariadicMacros.Token.Nests` — tokens are calls of a macro one inside the other;
* `VariadicMacros.nestedCalls` — the text of such calls.

Main results:

* `VariadicMacros.Scan.run_identity` — one call is the scan of its argument, and what comes of it;
* `VariadicMacros.Scan.run_nests` — what the scan of nested calls ends with, at every level;
* `VariadicMacros.MacroTable.expand_nests` — **the limits are exact for nested calls**.
-/

import VariadicMacros.Proofs.StringizedArguments

set_option autoImplicit false

namespace VariadicMacros

/-! ### Calls inside of arguments -/

/-- The macro `f` that gives its argument `x` back. -/
def Definition.identity (f x : String) : Definition := ⟨f, some [x], false, [.name x]⟩

/-- Whether blanks stand before a token list. -/
def Token.startsSpaced (ts : List Token) : Bool := ts.head?.any Token.spaced

/-- The tokens are calls of `f`, one the argument of the other, some number of them deep; the
argument of the innermost call is `inner`.  Blanks may stand anywhere. -/
inductive Token.Nests (f : String) (inner : List Token) : Nat → List Token → Prop
  | zero : Nests f inner 0 inner
  | succ {n : Nat} {ts : List Token} {p opening close : Token} (hp : p.word = .name f)
    (hopening : opening.word = .mark "(") (hclose : close.word = .mark ")")
    (h : Nests f inner n ts) : Nests f inner (n + 1) (p :: opening :: (ts ++ [close]))

/-- The text of calls of `f`, one the argument of the other, around an argument. -/
def nestedCalls (f argument : String) : Nat → String
  | 0 => argument
  | n + 1 => f ++ "(" ++ nestedCalls f argument n ++ ")"

namespace Token.Nests

variable {f : String} {inner ts : List Token} {n : Nat}

/-- Nested calls stand as one argument. -/
theorem isArgument (h : Nests f inner n ts) (hinner : Word.IsArgument (inner.map Token.word)) :
    Word.IsArgument (ts.map Token.word) := by
  induction h with
  | zero => exact hinner
  | @succ n ts p opening close hp hopening hclose _ ih =>
      have hwords : (p :: opening :: (ts ++ [close])).map Token.word =
          Word.call f [ts.map Token.word] := by
        simp [hp, hopening, hclose, Word.call, Word.parens]
      rw [hwords]
      exact Word.isArgument_call f (List.forall_mem_singleton.2 ih)

/-- The text of nested calls is read as such. -/
theorem exists_lex_nestedCalls (hf : Text.isIdentifier f.toList = true) {argument : String}
    (hlex : lex argument = .ok inner) (n : Nat) :
    ∃ ts, lex (nestedCalls f argument n) = .ok ts ∧ Nests f inner n ts := by
  induction n with
  | zero => exact ⟨inner, hlex, .zero⟩
  | succ n ih =>
      obtain ⟨ts, hts, hnests⟩ := ih
      obtain ⟨close, hclose, hcall⟩ := exists_lex_call hf hts
      exact ⟨_, hcall, .succ rfl rfl hclose hnests⟩

end Token.Nests

/-! ### One call -/

/-- A call of a macro that gives its argument back is replaced by the expanded argument. -/
theorem Definition.replacement_identity (f x : String) (argument : List Painted)
    (expandArgument : Substitution.ExpandArgument) (hidden : HideSet) (steps : Nat) :
    (identity f x).replacement [argument] expandArgument hidden steps =
      (expandArgument argument steps).map fun r =>
        ((Painted.respace false r.1).map (Painted.hide hidden), r.2) := by
  have hindex : (identity f x).parameterIndex? (Token.name x) = some 0 := by
    simp [identity, parameterIndex?, Token.name]
  rw [replacement, show (identity f x).body = [Token.name x] from rfl, Substitution.fill, hindex]
  simp only [Substitution.Walk.expansion, List.lookup_nil, List.getD_cons_zero]
  cases expandArgument argument steps with
  | error e => rfl
  | ok r => simp [Substitution.Walk.emit, Token.name, Except.map]

namespace Scan

variable {table : MacroTable} {f x : String} {limits : Limits} {supply level steps : Nat}

section Call

variable {ts : List Token} {p opening close : Token}

/-- What the search for the next invocation finds at a call of a macro that gives its argument
back. -/
theorem advance_identity (hf : table[f]? = some (.identity f x)) (hp : p.word = .name f)
    (hopening : opening.word = .mark "(") (hclose : close.word = .mark ")")
    (hts : Word.IsArgument (ts.map Token.word)) :
    advance table [] ((p :: opening :: (ts ++ [close])).map Painted.plain) =
      ([], .call ⟨.plain p, .identity f x, [ts.map Painted.plain], [f], []⟩) := by
  have hname : (Painted.plain p).word = .name (Definition.identity f x).name := hp
  have hmark : (Painted.plain opening).word = .mark "(" := hopening
  exact advance_call hf rfl hname (by simp) hmark
    (Invocation.readArguments_singleton hts hclose) []

/-- **One call** of a macro that gives its argument back is the scan of its argument, with one
invocation more, and then the scan of what came of it. -/
theorem run_identity (hf : table[f]? = some (.identity f x)) (hp : p.word = .name f)
    (hopening : opening.word = .mark "(") (hclose : close.word = .mark ")")
    (hts : Word.IsArgument (ts.map Token.word)) (hsteps : steps < limits.steps) :
    run table limits (supply + 1) level steps []
        ((p :: opening :: (ts ++ [close])).map Painted.plain) =
      (scanArgument table limits supply level (ts.map Painted.plain) (steps + 1)).bind fun r =>
        run table limits supply level r.2 []
          (Painted.respace p.spaced ((Painted.respace false r.1).map (Painted.hide [f]))) := by
  have hbind : (Definition.identity f x).bind [ts.map Painted.plain] =
      .ok [ts.map Painted.plain] := by
    simp [Definition.identity, Definition.bind, Definition.suits, Definition.demand,
      ArgumentDemand.accepts]
  rw [run_of_call_eq_bind (advance_identity hf hp hopening hclose hts) hsteps]
  simp only [hbind, Except.bind, Definition.replacement_identity, List.append_nil]
  cases scanArgument table limits supply level (ts.map Painted.plain) (steps + 1) <;> rfl

end Call

/-! ### Nested calls -/

/-- The tokens of what a call gives back are those of its argument, spaced like the call. -/
theorem map_toToken_returned (spaced : Bool) (f : String) {out : List Painted} {b : Bool}
    {inner : List Token} (h : out.map Painted.toToken = Token.respace b inner) :
    (Painted.respace spaced ((Painted.respace false out).map (Painted.hide [f]))).map
      Painted.toToken = Token.respace spaced inner := by
  have hhide : Painted.toToken ∘ Painted.hide [f] = Painted.toToken := rfl
  rw [Painted.map_toToken_respace, List.map_map, hhide, Painted.map_toToken_respace, h,
    Definition.respace_respace, Definition.respace_respace]

/-- **What the scan of nested calls ends with**: their argument, if there is room for all of them,
and otherwise the error of the limit that is met first. -/
theorem run_nests (limits : Limits) (supply level steps : Nat)
    (hf : table[f]? = some (.identity f x)) {inner ts : List Token}
    (hinner : Word.IsArgument (inner.map Token.word))
    (hignores : table.Ignores (inner.map Token.word)) {n : Nat} (h : Token.Nests f inner n ts)
    (hlevel : level ≤ limits.depth)
    (hsteps : steps ≤ limits.steps) (hsupply : limits.steps ≤ steps + supply) :
    (level + n ≤ limits.depth → steps + n ≤ limits.steps →
      ∃ out, run table limits supply level steps [] (ts.map Painted.plain) = .ok (out, steps + n) ∧
        out.map Painted.toToken = Token.respace (Token.startsSpaced ts) inner) ∧
    (limits.depth < level + n → limits.depth + steps < limits.steps + level →
      run table limits supply level steps [] (ts.map Painted.plain) =
        .error (.depthLimit limits.depth)) ∧
    (limits.steps < steps + n → limits.steps + level ≤ limits.depth + steps →
      run table limits supply level steps [] (ts.map Painted.plain) =
        .error (.stepLimit limits.steps)) := by
  induction h generalizing level steps supply with
  | zero =>
      refine ⟨fun _ _ => ⟨inner.map Painted.plain, run_of_ignores ?_, ?_⟩, ?_, ?_⟩
      · simpa [Function.comp_def, Painted.word] using hignores
      · cases inner <;> simp [Token.startsSpaced, Function.comp_def]
      · omega
      · omega
  | @succ n ts p opening close hp hopening hclose hnests ih =>
      have hts := hnests.isArgument hinner
      rcases Nat.lt_or_ge steps limits.steps with hroom | hfull
      · obtain ⟨supply, rfl⟩ : ∃ m, supply = m + 1 := ⟨supply - 1, by omega⟩
        rw [run_identity hf hp hopening hclose hts hroom, scanArgument]
        rcases Nat.lt_or_ge level limits.depth with hdeeper | hdeepest
        · obtain ⟨hok, hdepth, hstep⟩ := ih supply (level + 1) (steps + 1) hdeeper hroom (by omega)
          rw [if_neg (by omega)]
          refine ⟨fun hl hs => ?_, fun hl hs => ?_, fun hl hs => ?_⟩
          · obtain ⟨out, hrun, hout⟩ := hok (by omega) (by omega)
            have hreturned := map_toToken_returned p.spaced f hout
            refine ⟨_, ?_, hreturned⟩
            rw [hrun]
            -- what the call gives back invokes nothing when it is scanned once more
            have hwords := congrArg (List.map Token.word) hreturned
            rw [List.map_map, Token.map_word_respace] at hwords
            have hagain : run table limits supply level (steps + 1 + n) [] _ = _ :=
              run_of_ignores (hwords ▸ hignores)
            rw [Except.bind, hagain, Nat.add_assoc, Nat.add_comm 1 n, List.reverse_nil,
              List.nil_append]
          · rw [hdepth (by omega) (by omega)]
            rfl
          · rw [hstep (by omega) (by omega)]
            rfl
        · rw [if_pos hdeepest]
          exact ⟨by omega, fun _ _ => rfl, by omega⟩
      · have hrun : run table limits supply level steps []
            ((p :: opening :: (ts ++ [close])).map Painted.plain) =
              .error (.stepLimit limits.steps) :=
          run_of_no_room (advance_identity hf hp hopening hclose hts) fun hroom =>
            Nat.not_lt.2 hfull hroom.1
        exact ⟨by omega, by omega, fun _ _ => hrun⟩

end Scan

namespace MacroTable

/-- **The limits are exact for nested calls.**  Where a table has a macro `f` that gives its
argument back, `n` calls of it, one inside the other, around an argument without names of macros
are expanded to that argument with just `n` invocations, if there may be `n` levels and as many
invocations; otherwise the smaller of the two limits is passed, and with equal limits it is the
one of the invocations.  The text of nested calls around a text that is read as the argument is
read as nested calls. -/
theorem expand_nests {table : MacroTable} {f x : String} (hf : table[f]? = some (.identity f x))
    (hname : Text.isIdentifier f.toList = true) {inner : List Token}
    (hinner : Word.IsArgument (inner.map Token.word))
    (hignores : table.Ignores (inner.map Token.word)) (limits : Limits) (n : Nat) :
    (∀ argument, Token.lex argument = .ok inner →
      ∃ ts, Token.lex (nestedCalls f argument n) = .ok ts ∧ Token.Nests f inner n ts) ∧
    ∀ text ts, Token.lex text = .ok ts → Token.Nests f inner n ts →
      (n ≤ limits.depth → n ≤ limits.steps → table.expand limits text =
        .ok ⟨Token.respace (Token.startsSpaced ts) inner, n⟩) ∧
      (limits.depth < n → limits.depth < limits.steps →
        table.expand limits text = .error (.depthLimit limits.depth)) ∧
      (limits.steps < n → limits.steps ≤ limits.depth →
        table.expand limits text = .error (.stepLimit limits.steps)) := by
  refine ⟨fun argument hlex => Token.Nests.exists_lex_nestedCalls hname hlex n,
    fun text ts hlex hnests => ?_⟩
  obtain ⟨hok, hdepth, hsteps⟩ := Scan.run_nests limits limits.steps 0 0 hf hinner hignores hnests
    (by omega) (by omega) (by omega)
  rw [expand_of_lex hlex, expandTokens_eq_map]
  refine ⟨fun hd hs => ?_, fun hd hs => ?_, fun hd hs => ?_⟩
  · obtain ⟨out, hrun, hout⟩ := hok (by omega) (by omega)
    rw [hrun, Except.map, hout, Nat.zero_add]
  · rw [hdepth (by omega) (by omega)]
    rfl
  · rw [hsteps (by omega) (by omega)]
    rfl

/-- Three calls around an argument in parentheses, with limits that just suffice, with one level
too few and with one invocation too few. -/
theorem expand_nests_three :
    ∃ table : MacroTable, table.Reachable ∧ table["F"]? = some (.identity "F" "x") ∧
      table.expand ⟨3, 3⟩ "F(F (F( (a,b) )))" =
        .ok ⟨[.mark "(", .name "a", .mark ",", .name "b", .mark ")"], 3⟩ ∧
      table.expand ⟨3, 2⟩ "F(F (F( (a,b) )))" = .error (.depthLimit 2) ∧
      table.expand ⟨2, 3⟩ "F(F (F( (a,b) )))" = .error (.stepLimit 2) := by
  have hd : Definition.ofCommandLine "F(x)=x" = .ok (.identity "F" "x") := by cbv
  have htable : (MacroTable.empty.define (.identity "F" "x"))["F"]? =
      some (.identity "F" "x") := by
    rw [getElem?_define, Definition.identity, if_pos rfl]
  obtain ⟨inner, hinner⟩ : ∃ inner : List Token, inner =
    [(Token.mark "(").afterSpace, .name "a", .mark ",", .name "b", .mark ")"] := ⟨_, rfl⟩
  obtain ⟨ts, hts⟩ : ∃ ts : List Token, ts = .name "F" :: .mark "(" ::
    (.name "F" :: (Token.mark "(").afterSpace :: (.name "F" :: .mark "(" ::
      (inner ++ [(Token.mark ")").afterSpace]) ++ [.mark ")"]) ++ [.mark ")"]) := ⟨_, rfl⟩
  have hnests : Token.Nests "F" inner 3 ts := by
    subst hts
    exact .succ rfl rfl rfl (.succ rfl rfl rfl (.succ rfl rfl rfl .zero))
  have hlex : Token.lex "F(F (F( (a,b) )))" = .ok ts := by
    subst hts hinner
    cbv
  have hargument : Word.IsArgument (inner.map Token.word) := by
    subst hinner
    decide
  have hignores : (MacroTable.empty.define (.identity "F" "x")).Ignores
      (inner.map Token.word) := by
    have hother : ∀ w ∈ inner.map Token.word, "F" ≠ w.text := by
      subst hinner
      decide
    intro w hw _
    simp [getElem?_define, Definition.identity, hother w hw]
  have hall (limits : Limits) := (expand_nests htable (by decide) hargument hignores limits 3).2
    "F(F (F( (a,b) )))" ts hlex hnests
  refine ⟨_, Reachable.empty.define_read hd, htable, ?_, (hall ⟨3, 2⟩).2.1 (by decide) (by decide),
    (hall ⟨2, 3⟩).2.2 (by decide) (by decide)⟩
  have hok := (hall ⟨3, 3⟩).1 (by decide) (by decide)
  subst hts hinner
  exact hok

end MacroTable

end VariadicMacros
