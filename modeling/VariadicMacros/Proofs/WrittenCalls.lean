/-
**Calls as they are written.**

The arguments of a call are written with commas between them, and a comma or a parenthesis of an
argument stands inside of parentheses of its own.  Reading is the inverse of this: the arguments
that are read are the ones that are written in front of the parenthesis that closes the call, and
nothing is read where no parenthesis closes it.  What has been read is then lined up with the
parameters, and nothing of it is lost.

Main definitions:

* `VariadicMacros.Invocation.Writes` — the tokens that write the arguments of a call;
* `VariadicMacros.Definition.Fits` — the arguments are as many as a macro takes.

Main results:

* `VariadicMacros.Invocation.readArguments_eq_some_iff` — **reading arguments is the inverse of
  writing them**;
* `VariadicMacros.Invocation.readArguments_eq_none_iff` — a call without an end;
* `VariadicMacros.Definition.bind_of_fits` — what the parameters of a macro receive;
* `VariadicMacros.Definition.read_and_bound` — **a call is read as it is written, and binding it
  loses nothing**.
-/

import VariadicMacros.Proofs.RaisedLimits

set_option autoImplicit false

namespace VariadicMacros

open Painted (Shows)

/-- Tokens show their own words. -/
theorem Painted.Shows.self (ps : List Painted) :
    Shows (ps.flatMap Painted.hidden) ps (ps.map Painted.word) :=
  ⟨rfl, fun _ hp _ hn => List.mem_flatMap.2 ⟨_, hp, hn⟩⟩

namespace Invocation

/-! ### Writing arguments -/

/-- The tokens that write some arguments: one after the other, with a comma between every two.
No argument has a comma outside of parentheses, and all its parentheses have their partners; the
first one closes `nesting` parentheses besides, which stand before it. -/
inductive Writes : Nat → List (List Painted) → List Painted → Prop
  | last {nesting : Nat} {argument : List Painted}
      (h : Word.closes false nesting (argument.map Painted.word) = true) :
      Writes nesting [argument] argument
  | more {nesting : Nat} {argument : List Painted} {comma : Painted}
      {arguments : List (List Painted)} {inside : List Painted}
      (h : Word.closes false nesting (argument.map Painted.word) = true)
      (hcomma : comma.isMark "," = true) (hrest : Writes 0 arguments inside) :
      Writes nesting (argument :: arguments) (argument ++ comma :: inside)

namespace Writes

variable {nesting : Nat} {arguments : List (List Painted)} {inside : List Painted}

/-- A token in front of the first argument belongs to it. -/
theorem cons {p : Painted} {nesting' : Nat} (h : Writes nesting arguments inside)
    (hp : ∀ ws, Word.closes false nesting ws = true →
      Word.closes false nesting' (p.word :: ws) = true) :
    Writes nesting' (arguments.modifyHead (p :: ·)) (p :: inside) := by
  cases h with
  | last hcloses => exact .last (hp _ hcloses)
  | more hcloses hcomma hrest => exact .more (hp _ hcloses) hcomma hrest

/-- **Arguments that are written are read**, up to the parenthesis that closes the call. -/
theorem readFrom_eq (h : Writes nesting arguments inside) {close : Painted}
    (hclose : close.isMark ")" = true) (current : List Painted) (done : List (List Painted))
    (rest : List Painted) :
    readFrom nesting current done (inside ++ close :: rest) =
      some ⟨done.reverse ++ arguments.modifyHead (current.reverse ++ ·), close, rest⟩ := by
  induction h generalizing current done with
  | last hcloses =>
      have hopen : close.isMark "(" = false := Token.isMark_of_ne hclose (by decide)
      rw [readFrom_append (.self _) hcloses, readFrom]
      simp [hopen, hclose]
  | @more nesting argument comma arguments inside hcloses hcomma _ ih =>
      have hopen : comma.isMark "(" = false := Token.isMark_of_ne hcomma (by decide)
      have hclosing : comma.isMark ")" = false := Token.isMark_of_ne hcomma (by decide)
      rw [List.append_assoc, readFrom_append (.self _) hcloses, List.cons_append, readFrom]
      simp only [hopen, hclosing, hcomma, ih]
      cases arguments <;> simp

end Writes

/-- Words that close their parentheses write some arguments. -/
theorem exists_writes_of_closes {nesting : Nat} {inside : List Painted}
    (h : Word.closes true nesting (inside.map Painted.word) = true) :
    ∃ arguments, Writes nesting arguments inside := by
  induction inside generalizing nesting with
  | nil => exact ⟨[[]], .last h⟩
  | cons p inside ih =>
      rw [List.map_cons, Word.closes] at h
      split at h
      · next hopen =>
        obtain ⟨arguments, hwrites⟩ := ih h
        exact ⟨_, hwrites.cons fun ws hws => by rwa [Word.closes, if_pos hopen]⟩
      · next hopen =>
        split at h
        · next hclose =>
          rw [Bool.and_eq_true] at h
          obtain ⟨arguments, hwrites⟩ := ih h.2
          refine ⟨_, hwrites.cons fun ws hws => ?_⟩
          rw [Word.closes, if_neg hopen, if_pos hclose, h.1, hws]
          rfl
        · next hclose =>
          rw [Bool.true_or, Bool.true_or, Bool.true_and] at h
          obtain ⟨arguments, hwrites⟩ := ih h
          -- Only a comma outside of all parentheses stands between two arguments.
          by_cases hcomma : nesting = 0 ∧ p.word = .mark ","
          · obtain ⟨rfl, hword⟩ := hcomma
            have hmark : p.isMark "," = true := by simp [Painted.isMark_eq, hword]
            exact ⟨[] :: arguments, .more rfl hmark hwrites⟩
          · refine ⟨_, hwrites.cons fun ws hws => ?_⟩
            rw [Word.closes, if_neg hopen, if_neg hclose, hws]
            simpa [imp_iff_not_or] using hcomma

/-! ### Reading arguments -/

/-- What has been read stands before a parenthesis that closes all parentheses before it. -/
theorem exists_closes_of_readFrom {nesting : Nat} {current text : List Painted}
    {done : List (List Painted)} {list : ArgumentList}
    (h : readFrom nesting current done text = some list) :
    ∃ inside, text = inside ++ list.close :: list.rest ∧ list.close.isMark ")" = true ∧
      Word.closes true nesting (inside.map Painted.word) = true := by
  induction text generalizing nesting current done with
  | nil => cases h
  | cons p text ih =>
      rw [readFrom.eq_def] at h
      simp only at h
      split at h
      · next hopen =>
        obtain ⟨inside, rfl, hclose, hcloses⟩ := ih h
        refine ⟨p :: inside, rfl, hclose, ?_⟩
        rw [Painted.isMark_eq, decide_eq_true_eq] at hopen
        rwa [List.map_cons, Word.closes, if_pos hopen]
      · next hopen =>
        rw [Painted.isMark_eq, decide_eq_true_eq] at hopen
        split at h
        · next hclosing =>
          cases nesting with
          | zero =>
              cases h
              exact ⟨[], rfl, hclosing, rfl⟩
          | succ nesting =>
              obtain ⟨inside, rfl, hclose, hcloses⟩ := ih h
              refine ⟨p :: inside, rfl, hclose, ?_⟩
              rw [Painted.isMark_eq, decide_eq_true_eq] at hclosing
              rw [List.map_cons, Word.closes, if_neg hopen, if_pos hclosing, Nat.succ_sub_one,
                hcloses]
              rfl
        · next hclosing =>
          rw [Painted.isMark_eq, decide_eq_true_eq] at hclosing
          have hrest : ∀ {current : List Painted} {done : List (List Painted)},
              readFrom nesting current done text = some list →
              ∃ inside, p :: text = inside ++ list.close :: list.rest ∧
                list.close.isMark ")" = true ∧
                Word.closes true nesting (inside.map Painted.word) = true := by
            intro current done h
            obtain ⟨inside, rfl, hclose, hcloses⟩ := ih h
            refine ⟨p :: inside, rfl, hclose, ?_⟩
            rw [List.map_cons, Word.closes, if_neg hopen, if_neg hclosing, hcloses]
            rfl
          split at h
          · exact hrest h
          · exact hrest h

/-- **Reading the arguments of a call is the inverse of writing them.** -/
theorem readArguments_eq_some_iff {text : List Painted} {list : ArgumentList} :
    readArguments text = some list ↔ ∃ inside, Writes 0 list.arguments inside ∧
      list.close.isMark ")" = true ∧ text = inside ++ list.close :: list.rest := by
  have hread : ∀ {arguments : List (List Painted)} {inside : List Painted} {close : Painted}
      (rest : List Painted), Writes 0 arguments inside → close.isMark ")" = true →
      readArguments (inside ++ close :: rest) = some ⟨arguments, close, rest⟩ := by
    intro arguments inside close rest hwrites hclose
    rw [readArguments, hwrites.readFrom_eq hclose]
    cases arguments <;> simp
  constructor
  · intro h
    obtain ⟨inside, hsplit, hclose, hcloses⟩ := exists_closes_of_readFrom h
    obtain ⟨arguments, hwrites⟩ := exists_writes_of_closes hcloses
    rw [hsplit, hread list.rest hwrites hclose, Option.some_inj] at h
    rw [← h] at hsplit hclose ⊢
    exact ⟨inside, hwrites, hclose, hsplit⟩
  · rintro ⟨inside, hwrites, hclose, rfl⟩
    exact hread list.rest hwrites hclose

/-- **Nothing is read where no parenthesis closes the call.** -/
theorem readArguments_eq_none_iff {text : List Painted} :
    readArguments text = none ↔ ¬ ∃ inside close rest, text = inside ++ close :: rest ∧
      close.isMark ")" = true ∧ Word.IsBalanced (inside.map Painted.word) := by
  constructor
  · rintro h ⟨inside, close, rest, hsplit, hclose, hbalanced⟩
    obtain ⟨arguments, hwrites⟩ := exists_writes_of_closes hbalanced
    have hread : readArguments text = some ⟨arguments, close, rest⟩ :=
      readArguments_eq_some_iff.2 ⟨inside, hwrites, hclose, hsplit⟩
    rw [h] at hread
    cases hread
  · intro h
    rw [Option.eq_none_iff_forall_ne_some]
    intro list hlist
    obtain ⟨inside, hsplit, hclose, hcloses⟩ := exists_closes_of_readFrom hlist
    exact h ⟨inside, list.close, list.rest, hsplit, hclose, hcloses⟩

/-- Arguments are written one after the other with commas between them. -/
theorem written_eq_intercalate (arguments : List (List Painted)) :
    written arguments = [comma].intercalate arguments := by
  cases arguments with
  | nil => rfl
  | cons argument arguments =>
      rw [intercalate_cons]
      rfl

end Invocation

open Invocation (Writes readArguments)

/-- A call whose arguments have no end fails. -/
theorem Scan.run_of_readArguments_eq_none {table : MacroTable} {limits : Limits}
    {supply level steps : Nat} {out text : List Painted} {p opening : Painted} {d : Definition}
    (hp : definition? table p = some d) (hfunction : d.isFunctionLike = true)
    (hopening : opening.isMark "(" = true) (hnone : readArguments text = none) :
    run table limits supply level steps out (p :: opening :: text) =
      .error (.unterminatedInvocation d.name) := by
  have hadvance : advance table out (p :: opening :: text) = (out, .unterminated d) := by
    rw [advance_cons, stopAt?, hp]
    simp [hfunction, hopening, hnone]
  exact run_of_unterminated hadvance

/-! ### Lining arguments up with parameters -/

namespace Definition

/-- The arguments are as many as a macro with the parameters `names` takes; a macro without any
takes one empty argument. -/
def Fits (d : Definition) (names : List String) (arguments : List (List Painted)) : Prop :=
  (d.variadic = false ∧ 0 < names.length ∧ arguments.length = names.length) ∨
    (d.variadic = true ∧ names.length ≤ arguments.length) ∨
    (d.variadic = false ∧ names.length = 0 ∧ arguments = [[]])

variable {d : Definition} {names : List String}

/-- Arguments that fit are no fewer than the parameters. -/
theorem Fits.length_le {arguments : List (List Painted)} (h : d.Fits names arguments) :
    names.length ≤ arguments.length := by
  obtain ⟨-, -, hlength⟩ | ⟨-, hlength⟩ | ⟨-, hzero, -⟩ := h
  · exact Nat.le_of_eq hlength.symm
  · exact hlength
  · exact hzero ▸ Nat.zero_le _

variable (hnames : d.parameters = some names)

include hnames

theorem suits_iff (arguments : List (List Painted)) :
    d.suits arguments = true ↔ d.Fits names arguments := by
  unfold suits demand Fits
  rw [hnames, Option.getD_some]
  cases d.variadic with
  | true => simp [ArgumentDemand.accepts]
  | false =>
      cases names with
      | nil => simp
      | cons n names => simp [ArgumentDemand.accepts]

/-- **What the parameters of a macro receive**: a parameter its argument, and the ellipsis all
arguments that are left, with commas between them. -/
theorem bind_of_fits {arguments : List (List Painted)} (h : d.Fits names arguments) :
    d.bind arguments = .ok (arguments.take names.length ++
      if d.variadic then [[Invocation.comma].intercalate (arguments.drop names.length)] else []) := by
  have hbind : d.bind arguments = if d.variadic
      then .ok (arguments.take names.length ++ [Invocation.written (arguments.drop names.length)])
      else if names.isEmpty then .ok [] else .ok arguments := by
    rw [bind, hnames]
    exact if_pos ((suits_iff hnames arguments).2 h)
  rw [hbind, Invocation.written_eq_intercalate]
  obtain ⟨hvariadic, hpos, hlength⟩ | ⟨hvariadic, -⟩ | ⟨hvariadic, hzero, -⟩ := h
  · have hne : names.isEmpty = false := by
      rw [List.isEmpty_eq_false_iff, ← List.length_pos_iff]
      exact hpos
    simp [hvariadic, hne, List.take_of_length_le (Nat.le_of_eq hlength)]
  · simp [hvariadic]
  · simp [hvariadic, List.length_eq_zero_iff.1 hzero]

theorem bind_of_not_fits {arguments : List (List Painted)} (h : ¬ d.Fits names arguments) :
    d.bind arguments = .error (.argumentCount d.name d.demand arguments.length) := by
  rw [bind, hnames]
  exact if_neg fun hsuits => h ((suits_iff hnames arguments).1 hsuits)

/-- **A call is read as it is written, and binding loses nothing.**  The arguments that are read,
the closing parenthesis and the rest are those of a writing; where there is none the call has no
end.  What is bound are the arguments, as many as the macro takes, and otherwise their number is
reported. -/
theorem read_and_bound (text : List Painted) :
    (∀ arguments close rest, readArguments text = some ⟨arguments, close, rest⟩ ↔
      ∃ inside, Writes 0 arguments inside ∧ close.isMark ")" = true ∧
        text = inside ++ close :: rest) ∧
    (readArguments text = none ↔ ¬ ∃ inside close rest, text = inside ++ close :: rest ∧
      close.isMark ")" = true ∧ Word.IsBalanced (inside.map Painted.word)) ∧
    (∀ (table : MacroTable) (limits : Limits) (supply level steps : Nat) (out : List Painted)
        (p opening : Painted), Scan.definition? table p = some d → opening.isMark "(" = true →
      readArguments text = none →
        Scan.run table limits supply level steps out (p :: opening :: text) =
          .error (.unterminatedInvocation d.name)) ∧
    ∀ arguments, ((∃ actuals, d.bind arguments = .ok actuals) ↔ d.Fits names arguments) ∧
      (∀ actuals, d.bind arguments = .ok actuals →
        (∀ j < names.length, ∃ a, arguments[j]? = some a ∧ actuals[j]? = some a) ∧
        actuals.drop names.length = if d.variadic
          then [[Invocation.comma].intercalate (arguments.drop names.length)] else []) ∧
      ∀ e, d.bind arguments = .error e →
        e = .argumentCount d.name d.demand arguments.length := by
  have hfunction : d.isFunctionLike = true := by simp [isFunctionLike, hnames]
  refine ⟨fun arguments close rest => Invocation.readArguments_eq_some_iff,
    Invocation.readArguments_eq_none_iff, fun table limits supply level steps out p opening hp =>
      Scan.run_of_readArguments_eq_none hp hfunction, fun arguments => ?_⟩
  by_cases hfits : d.Fits names arguments
  · rw [bind_of_fits hnames hfits]
    refine ⟨⟨fun _ => hfits, fun _ => ⟨_, rfl⟩⟩, ?_, fun e he => by cases he⟩
    rintro actuals ⟨rfl⟩
    have htake : (arguments.take names.length).length = names.length := by
      rw [List.length_take, Nat.min_eq_left hfits.length_le]
    refine ⟨fun j hj => ?_, List.drop_left' htake⟩
    have hj' : j < arguments.length := Nat.lt_of_lt_of_le hj hfits.length_le
    refine ⟨arguments[j], List.getElem?_eq_getElem hj', ?_⟩
    rw [List.getElem?_append_left (by rwa [htake]), List.getElem?_take_of_lt hj,
      List.getElem?_eq_getElem hj']
  · rw [bind_of_not_fits hnames hfits]
    refine ⟨⟨fun h => ?_, fun h => absurd h hfits⟩, fun actuals h => (by cases h), ?_⟩
    · obtain ⟨actuals, h⟩ := h
      cases h
    · rintro e ⟨rfl⟩
      rfl

omit hnames

/-- A comma inside of parentheses, the arguments of an ellipsis, and a call without an end. -/
theorem read_and_bound_nested :
    ∃ (d : Definition) (inside : List Painted) (arguments actuals : List (List Painted)),
      d = ⟨"F", some ["x"], true, []⟩ ∧
      inside = [.mark "(", .mark ",", .mark ")", .mark ",", .name "b", .mark ","].map .plain ∧
      arguments = [[.mark "(", .mark ",", .mark ")"], [.name "b"], []].map (·.map .plain) ∧
      readArguments (inside ++ [.plain (.mark ")")]) =
        some ⟨arguments, .plain (.mark ")"), []⟩ ∧
      d.bind arguments = .ok actuals ∧
      actuals[0]? = some ([.mark "(", .mark ",", .mark ")"].map .plain) ∧
      actuals.drop 1 = [[.name "b", .mark ","].map .plain] ∧
      Scan.run (MacroTable.empty.define d) {} 1 0 0 []
        (.plain (.name "F") :: .plain (.mark "(") :: inside) =
          .error (.unterminatedInvocation "F") := by
  obtain ⟨d, hd⟩ : ∃ d : Definition, d = ⟨"F", some ["x"], true, []⟩ := ⟨_, rfl⟩
  obtain ⟨inside, hinside⟩ : ∃ inside : List Painted, inside =
    [.mark "(", .mark ",", .mark ")", .mark ",", .name "b", .mark ","].map .plain := ⟨_, rfl⟩
  obtain ⟨arguments, harguments⟩ : ∃ arguments : List (List Painted), arguments =
    [[.mark "(", .mark ",", .mark ")"], [.name "b"], []].map (·.map .plain) := ⟨_, rfl⟩
  have hnames : d.parameters = some ["x"] := by rw [hd]
  have hvariadic : d.variadic = true := by rw [hd]
  have hwrites : Writes 0 arguments inside := by
    subst hinside harguments
    exact .more rfl rfl (.more rfl rfl (.last rfl))
  have hlength : arguments.length = 3 := by rw [harguments]; rfl
  obtain ⟨hread, -, -, hbind⟩ := read_and_bound hnames (inside ++ [.plain (.mark ")")])
  obtain ⟨-, -, hrun, -⟩ := read_and_bound hnames inside
  obtain ⟨hfits, hbound, -⟩ := hbind arguments
  obtain ⟨actuals, hactuals⟩ := hfits.2 (.inr (.inl ⟨hvariadic, by rw [hlength]; decide⟩))
  obtain ⟨hnamed, htail⟩ := hbound actuals hactuals
  refine ⟨d, inside, arguments, actuals, hd, hinside, harguments,
    (hread _ _ _).2 ⟨inside, hwrites, rfl, rfl⟩, hactuals, ?_, ?_, ?_⟩
  · obtain ⟨a, ha, hactual⟩ := hnamed 0 Nat.zero_lt_one
    rw [hactual, ← ha, harguments]
    rfl
  · rw [show 1 = ["x"].length from rfl, htail, if_pos hvariadic, harguments]
    rfl
  · have hname : d.name = "F" := by rw [hd]
    have hentry : (MacroTable.empty.define d)[d.name]? = some d := by
      rw [MacroTable.getElem?_define, if_pos rfl]
    have hdefinition : Scan.definition? (MacroTable.empty.define d) (.plain (.name "F")) = some d :=
      Scan.definition?_eq_some hentry (by rw [hname]; rfl) (by simp)
    rw [← hname]
    rw [← hname] at hdefinition
    exact hrun _ _ _ _ _ _ _ _ hdefinition rfl (by rw [hinside]; rfl)

end Definition

end VariadicMacros
