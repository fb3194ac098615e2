/-
**Walks over chains.**

A walk over a replacement list goes from chain to chain.  A chain whose first operand has tokens is
put out and pasted to; one whose first operand is empty is entered at its second operand; and a
parameter that is a chain of its own is expanded.  So a walk fills in the chains as their operators
ask for, if they are anchored.

Main definitions:

* `VariadicMacros.Substitution.Expands` — every argument is expanded to words of its own.

Main results:

* `VariadicMacros.Substitution.arrives_chain` — a walk over one chain;
* `VariadicMacros.Substitution.fill_of_nil_nil` — a walk over a chain that is not anchored;
* `VariadicMacros.Scan.exists_expands` — what arguments are expanded to is determined;
* `VariadicMacros.Definition.replacement_eq_filledIn` — **a walk over anchored chains fills them
  in as the operators ask for**.
-/

import VariadicMacros.Proofs.DefinitionGrammar
import VariadicMacros.Proofs.PastedOperands
import VariadicMacros.Proofs.RaisedLimits
import VariadicMacros.Proofs.ReachableTables

set_option autoImplicit false

namespace VariadicMacros.Substitution

section Walks

variable {d : Definition} {actuals : List (List Painted)} {expandArgument : ExpandArgument}
  {expansion : Nat → List Word}

/-! ### Chains of several operands -/

theorem words_respace (spaced : Bool) (ps : List Painted) :
    (Painted.respace spaced ps).map Painted.word = ps.map Painted.word := by
  cases ps <;> rfl

theorem fill_put {t : Token} {rest left : List Token} {ps : List Painted}
    (h : nextMove d actuals t rest = (.put ps, left)) (w : Walk) :
    fill d actuals expandArgument (t :: rest) w =
      fill d actuals expandArgument left (w.emit ps) := by
  rw [fill_eq_carryOut, h]
  rfl

/-- A walk puts out an operand at the start of a chain, unless it is empty or stands alone. -/
theorem exists_nextMove_eq_put {t : Token} (ht : t.isMark "##" = false) {rest : List Token}
    (hne : (readOperand d t rest).1.tokens actuals ≠ [])
    (halone : ∀ i, (readOperand d t rest).1 = .parameter i →
      afterPaste? (readOperand d t rest).2 ≠ none) :
    ∃ ps, ps.map Painted.word = (readOperand d t rest).1.words actuals ∧
      nextMove d actuals t rest = (.put ps, (readOperand d t rest).2) := by
  cases rest with
  | nil =>
      cases hi : d.parameterIndex? t with
      | none => exact ⟨[.plain t], by simp [readOperand, plainOperand, hi, Operand.words,
          Operand.tokens], by simp [nextMove, plainMove, hi, readOperand]⟩
      | some i =>
          exact absurd rfl (halone i (by simp [readOperand, plainOperand, hi]))
  | cons next more =>
      rw [readOperand] at hne halone ⊢
      rw [nextMove]
      split
      · exact ⟨[stringize _ t.spaced], rfl, rfl⟩
      · next hquoted =>
        rw [if_neg hquoted] at hne halone
        rw [ht, if_neg Bool.false_ne_true]
        cases hi : d.parameterIndex? t with
        | none => exact ⟨[.plain t], by simp [plainOperand, hi, Operand.words, Operand.tokens], rfl⟩
        | some i =>
            have hoperand : plainOperand d t = .parameter i := by simp [plainOperand, hi]
            rw [hoperand] at hne halone ⊢
            obtain ⟨⟨t', rest⟩, hsome⟩ := Option.ne_none_iff_exists'.1 (halone i rfl)
            obtain ⟨op, hop, heq⟩ := eq_cons_of_afterPaste? hsome
            cases heq
            simp only [hop, if_true]
            rw [if_neg (by simpa [Operand.tokens] using hne)]
            exact ⟨_, words_respace _ _, rfl⟩

theorem Walk.words_emit (w : Walk) (ps : List Painted) :
    (w.emit ps).words = w.words ++ ps.map Painted.word := by
  simp [Walk.words, Walk.emit]

/-- **A walk fills in a chain whose first operand is there**, as long as no other operand is a `#`
with its parameter. -/
theorem arrives_of_ne_nil {t : Token} (ht : t.isMark "##" = false) {rest : List Token}
    (hne : (readOperand d t rest).1.tokens actuals ≠ [])
    (halone : ∀ i, (readOperand d t rest).1 = .parameter i →
      afterPaste? (readOperand d t rest).2 ≠ none)
    (hquoted : ∀ o ∈ (readTail d (readOperand d t rest).2).1, o.isQuoted = false)
    {w : Walk} (hrecalls : w.Recalls expansion) :
    Arrives d actuals expandArgument expansion (t :: rest) w (readChain d t rest).2
      ((gluedTo actuals (cellsOf ((readOperand d t rest).1.words actuals))
        (readTail d (readOperand d t rest).2).1).map fun cells =>
          w.words ++ cells.reduceOption) := by
  obtain ⟨ps, hwords, hmove⟩ := exists_nextMove_eq_put ht hne halone
  have hends : Ends w.words (w.emit ps).out (cellsOf (ps.map Painted.word)) := .of_emit rfl ps
  rw [hwords] at hends
  refine .of_eq (fill_put hmove w)
    (arrives_tail _ (w := w.emit ps) hrecalls hends hquoted fun hcells => ?_)
  exact absurd (List.map_eq_nil_iff.1 (eq_nil_of_cellsOf hcells)) hne

/-- A walk at an empty operand that another one is pasted to skips it with the operator, and puts
a parameter after it out. -/
theorem nextMove_of_eq_nil {t t' : Token} {i : Nat} (hi : d.parameterIndex? t = some i)
    (hnil : actuals.getD i [] = []) {rest more : List Token}
    (hafter : afterPaste? rest = some (t', more)) :
    nextMove d actuals t rest = emptyMove d actuals t.spaced (t' :: more) := by
  obtain ⟨op, hop, rfl⟩ := eq_cons_of_afterPaste? hafter
  rw [nextMove, isMark_of_parameterIndex? hi, isMark_of_parameterIndex? hi]
  simp only [Bool.false_and, Bool.false_eq_true, if_false, hi, hop, if_true, hnil,
    List.isEmpty_nil]

/-- **A walk fills in a chain whose first operand is empty** if it is anchored. -/
theorem arrives_of_eq_nil {t t' : Token} {i : Nat} (hi : d.parameterIndex? t = some i)
    (hnil : actuals.getD i [] = []) {rest more : List Token}
    (hafter : afterPaste? rest = some (t', more)) {w : Walk} (hrecalls : w.Recalls expansion)
    (hanchored : Anchored actuals (w.words = []) (.parameter i) (readOperand d t' more).1
      (readTail d (readOperand d t' more).2).1) :
    Arrives d actuals expandArgument expansion (t :: rest) w (readChain d t' more).2
      ((gluedTo actuals (cellsOf ((readOperand d t' more).1.words actuals))
        (readTail d (readOperand d t' more).2).1).map fun cells =>
          w.words ++ cells.reduceOption) := by
  have hmove := nextMove_of_eq_nil hi hnil hafter
  cases hj : d.parameterIndex? t' with
  | none =>
      rw [emptyMove, hj] at hmove
      have hoperand := tokens_ne_nil_of_parameterIndex? actuals hj more
      have hfill : fill d actuals expandArgument (t :: rest) w =
          fill d actuals expandArgument (t' :: more) w := by rw [fill_put hmove, emit_nil]
      refine .of_eq hfill (arrives_of_ne_nil ?_ hoperand.1 (fun i hi => absurd hi (hoperand.2 i))
        hanchored.rest_not_quoted hrecalls)
      cases hquoted : (readOperand d t' more).1.isQuoted with
      | true => exact isMark_of_isQuoted hquoted
      | false =>
          refine hanchored.second_not_paste hnil t' ?_
          rw [readOperand_of_not_quoted hquoted]
          simp [plainOperand, hj]
  | some j =>
      rw [emptyMove, hj] at hmove
      have hread := readOperand_of_parameterIndex? hj more
      rw [readChain]
      rw [hread] at hanchored ⊢
      have hends : Ends w.words (w.emit (Painted.respace t.spaced (actuals.getD j []))).out
          (cellsOf ((Painted.respace t.spaced (actuals.getD j [])).map Painted.word)) :=
        .of_emit rfl _
      rw [words_respace] at hends
      refine .of_eq (fill_put hmove w) (arrives_tail more
        (w := w.emit (Painted.respace t.spaced (actuals.getD j []))) hrecalls hends
        hanchored.rest_not_quoted fun hcells => ?_)
      have hnil' : actuals.getD j [] = [] := List.map_eq_nil_iff.1 (eq_nil_of_cellsOf hcells)
      refine (hanchored.nil_nil hnil hnil').imp_left fun hwords => ?_
      rw [hnil']
      simpa [Walk.words, Walk.emit, Painted.respace] using hwords

/-- Where the first two operands of a chain are empty, the third one is pasted to whatever has been
put out before the chain. -/
theorem fill_of_nil_nil {t t' op : Token} {i j : Nat} (hi : d.parameterIndex? t = some i)
    (hnil : actuals.getD i [] = []) (hop : op.isMark "##" = true)
    (hj : d.parameterIndex? t' = some j) (hnil' : actuals.getD j [] = []) {op' t'' : Token}
    (hop' : op'.isMark "##" = true) (rest : List Token) (w : Walk) :
    fill d actuals expandArgument (t :: op :: t' :: op' :: t'' :: rest) w =
      match paste w.out ((plainOperand d t'').tokens actuals) with
      | .error e => .error e
      | .ok out => fill d actuals expandArgument rest { w with out := out } := by
  have hafter : afterPaste? (op :: t' :: op' :: t'' :: rest) =
      some (t', op' :: t'' :: rest) := by
    rw [afterPaste?, if_pos hop]
  have hmove := nextMove_of_eq_nil hi hnil hafter
  rw [emptyMove, hj] at hmove
  simp only [hnil', Painted.respace] at hmove
  rw [fill_put hmove, emit_nil]
  exact fill_paste hop' rest w

/-! ### Parameters that stand alone -/

/-- An argument is expanded to the words `expansion` of its parameter whenever it is expanded. -/
def Expands (actuals : List (List Painted)) (expandArgument : ExpandArgument)
    (expansion : Nat → List Word) : Prop :=
  ∀ i steps r, expandArgument (actuals.getD i []) steps = .ok r →
    r.1.map Painted.word = expansion i

/-- The expansion of a parameter is found, unless its argument cannot be expanded. -/
theorem expansion_eq (hexpands : Expands actuals expandArgument expansion) (i : Nat) {w : Walk}
    (hrecalls : w.Recalls expansion) :
    (∃ e, expandArgument (actuals.getD i []) w.steps = .error e ∧
        w.expansion expandArgument actuals i = .error e) ∨
      ∃ tokens w', w.expansion expandArgument actuals i = .ok (tokens, w') ∧
        tokens.map Painted.word = expansion i ∧ w'.words = w.words ∧ w'.Recalls expansion := by
  unfold Walk.expansion
  cases hlookup : w.expanded.lookup i with
  | some tokens => exact .inr ⟨tokens, w, rfl, hrecalls i tokens hlookup, rfl, hrecalls⟩
  | none =>
      simp only
      cases hr : expandArgument (actuals.getD i []) w.steps with
      | error e => exact .inl ⟨e, rfl, rfl⟩
      | ok r =>
          have hwords := hexpands i w.steps r hr
          refine .inr ⟨r.1, _, rfl, hwords, rfl, fun j tokens hj => ?_⟩
          rw [List.lookup_cons] at hj
          split at hj
          · next hji =>
            cases hj
            rw [beq_iff_eq.1 hji]
            exact hwords
          · exact hrecalls j tokens hj

/-- **A walk puts out the expansion of a parameter that stands alone.** -/
theorem arrives_of_parameter (hexpands : Expands actuals expandArgument expansion) {t : Token}
    {i : Nat} (hi : d.parameterIndex? t = some i) {rest : List Token}
    (hrest : startsWithPaste rest = false) {w : Walk} (hrecalls : w.Recalls expansion) :
    (∃ steps e, expandArgument (actuals.getD i []) steps = .error e ∧
        fill d actuals expandArgument (t :: rest) w = .error e) ∨
      Arrives d actuals expandArgument expansion (t :: rest) w rest
        (.ok (w.words ++ expansion i)) := by
  have hmove : nextMove d actuals t rest = (.expand i t.spaced, rest) := by
    cases rest with
    | nil => rw [nextMove, plainMove, hi]
    | cons next rest =>
        have hnext : next.isMark "##" = false := by simpa [startsWithPaste] using hrest
        rw [nextMove, isMark_of_parameterIndex? hi, isMark_of_parameterIndex? hi]
        simp [hi, hnext]
  have hfill : fill d actuals expandArgument (t :: rest) w = _ := fill_eq_carryOut t rest w
  rw [hmove] at hfill
  simp only [Move.carryOut] at hfill
  rcases expansion_eq hexpands i hrecalls with ⟨e, hargument, herror⟩ | ⟨tokens, w', hok, htokens,
    hwords, hrecalls'⟩
  · rw [herror] at hfill
    exact .inl ⟨w.steps, e, hargument, hfill⟩
  · rw [hok] at hfill
    refine .inr ⟨_, hfill, ?_, hrecalls'⟩
    rw [Walk.words_emit, words_respace, htokens, hwords]

/-! ### Walks over chains -/

/-- **A walk fills in an anchored chain**, unless it is a parameter whose argument cannot be
expanded. -/
theorem arrives_chain (hexpands : Expands actuals expandArgument expansion) {t : Token}
    (ht : t.isMark "##" = false) {rest : List Token}
    (hleft : startsWithPaste (readChain d t rest).2 = false) {w : Walk}
    (hrecalls : w.Recalls expansion)
    (hanchored : ∀ o o' os, (readChain d t rest).1 = o :: o' :: os →
      Anchored actuals (w.words = []) o o' os) :
    (∃ i steps e, (readChain d t rest).1 = [.parameter i] ∧
        expandArgument (actuals.getD i []) steps = .error e ∧
        fill d actuals expandArgument (t :: rest) w = .error e) ∨
      Arrives d actuals expandArgument expansion (t :: rest) w (readChain d t rest).2
        ((chainCells actuals expansion (readChain d t rest).1).map fun cells =>
          w.words ++ cells.reduceOption) := by
  cases hafter : afterPaste? (readOperand d t rest).2 with
  | none =>
      cases hi : d.parameterIndex? t with
      | some i =>
          have hread := readOperand_of_parameterIndex? hi rest
          rw [readChain, hread] at hleft ⊢
          rw [hread] at hafter
          rw [readTail_of_none hafter] at hleft ⊢
          rcases arrives_of_parameter hexpands hi hleft hrecalls with ⟨steps, e, herror⟩ | harrives
          · exact .inl ⟨i, steps, e, rfl, herror⟩
          · exact .inr (by simpa [chainCells, Except.map, List.reduceOption] using harrives)
      | none =>
          have hoperand := tokens_ne_nil_of_parameterIndex? actuals hi rest
          refine .inr ?_
          rw [readChain, chainCells_cons fun i hi => absurd hi (hoperand.2 i)]
          exact arrives_of_ne_nil ht hoperand.1 (fun i hi => absurd hi (hoperand.2 i))
            (by simp [readTail_of_none hafter]) hrecalls
  | some r =>
      obtain ⟨t', more⟩ := r
      refine .inr ?_
      have hanchored := hanchored (readOperand d t rest).1 (readOperand d t' more).1
        (readTail d (readOperand d t' more).2).1 (by rw [readChain, readTail_of_some hafter])
      rw [readChain, chainCells_cons (by simp [readTail_of_some hafter])]
      by_cases hnil : (readOperand d t rest).1.tokens actuals = []
      · obtain ⟨i, hi, hargument⟩ := exists_parameter_of_tokens_eq_nil hnil
        have hread := readOperand_of_parameterIndex? hi rest
        rw [hread] at hafter hanchored ⊢
        rw [readTail_of_some hafter, Operand.words, Operand.tokens, hargument, List.map_nil,
          cellsOf, gluedTo_placemarker]
        exact arrives_of_eq_nil hi hargument hafter hrecalls hanchored
      · refine arrives_of_ne_nil ht hnil (fun i _ => by simp [hafter]) (fun o ho => ?_) hrecalls
        rw [readTail_of_some hafter] at ho
        rcases List.mem_cons.1 ho with rfl | ho
        · exact hanchored.second_not_quoted hnil
        · exact hanchored.rest_not_quoted o ho

/-! ### Walks over replacement lists -/

/-- **A walk fills in the chains of a replacement list one after the other.** -/
theorem words_fill (hexpands : Expands actuals expandArgument expansion) (body : List Token)
    (hstart : startsWithPaste body = false) (hlast : endsWithPaste body = false)
    {before : List (List Operand)} {cells : List Cell}
    (hbefore : filledCells actuals expansion before = .ok cells)
    (hanchored : ∀ between o o' os after, chains d body = between ++ (o :: o' :: os) :: after →
      ∀ words, filledIn actuals expansion (before ++ between) = .ok words →
        Anchored actuals (words = []) o o' os)
    {w : Walk} (hrecalls : w.Recalls expansion) (hw : w.words = cells.reduceOption) :
    (∃ i steps e, [.parameter i] ∈ chains d body ∧
        expandArgument (actuals.getD i []) steps = .error e ∧
        fill d actuals expandArgument body w = .error e) ∨
      (fill d actuals expandArgument body w).map Walk.words =
        filledIn actuals expansion (before ++ chains d body) := by
  induction body using chains.induct d generalizing before cells w with
  | case1 =>
      refine .inr ?_
      rw [chains, List.append_nil, filledIn, hbefore, fill_nil]
      exact congrArg Except.ok hw
  | case2 t rest _ ih =>
      rw [chains] at hanchored ⊢
      have hfirst : ∀ o o' os, (readChain d t rest).1 = o :: o' :: os →
          Anchored actuals (w.words = []) o o' os := by
        intro o o' os hchain
        rw [hw]
        refine hanchored [] o o' os _ (by rw [hchain, List.nil_append]) _ ?_
        rw [List.append_nil, filledIn, hbefore]
        rfl
      have hleft := startsWithPaste_readChain (d := d) hlast
      rcases arrives_chain hexpands hstart hleft hrecalls hfirst with
        ⟨i, steps, e, hchain, herror⟩ | harrives
      · exact .inl ⟨i, steps, e, hchain ▸ List.mem_cons_self, herror⟩
      · cases hcells : chainCells actuals expansion (readChain d t rest).1 with
        | error e =>
            rw [hcells] at harrives
            refine .inr ?_
            rw [filledIn, filledCells_append hbefore, filledCells, hcells]
            exact congrArg _ harrives
        | ok cells' =>
            rw [hcells] at harrives
            obtain ⟨w', hfill, hwords, hrecalls'⟩ := harrives
            rw [hfill, List.append_cons]
            have hcells' : filledCells actuals expansion (before ++ [(readChain d t rest).1]) =
                .ok (cells ++ cells') := by
              rw [filledCells_append hbefore, filledCells, hcells]
              simp [filledCells, Except.map]
            have hlast' : endsWithPaste (readChain d t rest).2 = false :=
              endsWithPaste_suffix ((readChain_suffix d t rest).trans (List.suffix_cons t rest))
                hlast
            have hrest := ih hleft hlast' hcells' (fun between o o' os after h => ?_) hrecalls'
              (by rw [hwords, hw, List.reduceOption_append])
            · rcases hrest with ⟨i, steps, e, hmem, herror⟩ | hfilled
              · exact .inl ⟨i, steps, e, List.mem_cons_of_mem _ hmem, herror⟩
              · exact .inr hfilled
            · have hfilled :=
                hanchored ((readChain d t rest).1 :: between) o o' os after (by rw [h]; rfl)
              rwa [List.append_cons] at hfilled

end Walks

end VariadicMacros.Substitution

namespace VariadicMacros

open Substitution

/-! ### Expanded arguments -/

namespace Scan

variable {table : MacroTable} {limits : Limits} {supply level : Nat}

/-- What an argument is expanded to does not depend on the invocations counted before. -/
theorem tokens_eq_of_run {steps steps' : Nat} {text : List Painted}
    {r r' : List Painted × Nat} (hle : steps ≤ steps')
    (h : run table limits supply level steps [] text = .ok r)
    (h' : run table limits supply level steps' [] text = .ok r') : r.1 = r'.1 := by
  -- The run that counted more has less room, and so the two run side by side.
  have hparallel : Parallel (resume [].reverse steps') (resume [].reverse steps)
      (run table limits supply level steps' [] text)
      (run table limits supply level steps [] text) :=
    parallel_run (by omega) (Nat.le_refl _) (Nat.le_refl _) 0 [] [] [] text
  rw [h, h'] at hparallel
  obtain ⟨x, hx', hx⟩ := hparallel (uncut_ok r')
  cases x with
  | error e => cases hx
  | ok x =>
      cases hx
      cases hx'
      rfl

theorem tokens_eq_of_scanArgument {steps steps' : Nat} {argument : List Painted}
    {r r' : List Painted × Nat}
    (h : scanArgument table limits supply level argument steps = .ok r)
    (h' : scanArgument table limits supply level argument steps' = .ok r') : r.1 = r'.1 := by
  unfold scanArgument at h h'
  split at h
  · cases h
  · next hlevel =>
    rw [if_neg hlevel] at h'
    rcases Nat.le_total steps steps' with hle | hle
    · exact tokens_eq_of_run hle h h'
    · exact (tokens_eq_of_run hle h' h).symm

/-- Scans expand every argument to words of its own. -/
theorem exists_expands (actuals : List (List Painted)) :
    ∃ expansion, Expands actuals (scanArgument table limits supply level) expansion := by
  have hwords : ∀ i, ∃ ws : List Word, ∀ steps r,
      scanArgument table limits supply level (actuals.getD i []) steps = .ok r →
        r.1.map Painted.word = ws := by
    intro i
    by_cases hex : ∃ steps r,
        scanArgument table limits supply level (actuals.getD i []) steps = .ok r
    · obtain ⟨steps, r, hr⟩ := hex
      exact ⟨r.1.map Painted.word, fun steps' r' hr' => by rw [tokens_eq_of_scanArgument hr hr']⟩
    · exact ⟨[], fun steps r hr => absurd ⟨steps, r, hr⟩ hex⟩
  choose expansion hexpansion using hwords
  exact ⟨expansion, hexpansion⟩

end Scan

namespace Definition

/-- A definition that is read has been checked for a `##` at either end. -/
theorem hasDanglingPaste_of_isRead {d : Definition} (h : d.IsRead) :
    hasDanglingPaste d.body = false := by
  obtain ⟨cs, tokens, -, hd⟩ := h
  exact pastesInside_iff.1 (ofTokens_eq_ok_iff.1 hd).2.1

/-- **A walk fills in a replacement list as the operators ask for** if its chains are anchored,
unless the argument of a parameter that stands alone cannot be expanded. -/
theorem replacement_eq_filledIn {d : Definition} (hread : d.IsRead)
    {actuals : List (List Painted)} {expandArgument : ExpandArgument} {expansion : Nat → List Word}
    (hexpands : Expands actuals expandArgument expansion)
    (hanchored : d.IsAnchored actuals expansion) (hidden : HideSet) (steps : Nat) :
    (∃ i counted e, [.parameter i] ∈ chains d d.body ∧
        expandArgument (actuals.getD i []) counted = .error e ∧
        d.replacement actuals expandArgument hidden steps = .error e) ∨
      (d.replacement actuals expandArgument hidden steps).map (fun r => r.1.map Painted.word) =
        filledIn actuals expansion (chains d d.body) := by
  have hdangling := hasDanglingPaste_of_isRead hread
  rw [hasDanglingPaste, Bool.or_eq_false_iff] at hdangling
  have hnil : filledCells actuals expansion [] = .ok [] := rfl
  have hfill := words_fill hexpands d.body hdangling.1 hdangling.2 hnil hanchored
    (w := ⟨[], [], steps⟩) (by simp [Walk.Recalls]) rfl
  rw [List.nil_append] at hfill
  unfold replacement
  rcases hfill with ⟨i, counted, e, hmem, hargument, herror⟩ | hfilled
  · exact .inl ⟨i, counted, e, hmem, hargument, by rw [herror]⟩
  · refine .inr ?_
    rw [← hfilled]
    cases fill d actuals expandArgument d.body ⟨[], [], steps⟩ with
    | error e => rfl
    | ok w =>
        refine congrArg Except.ok ?_
        simp only [Walk.words, List.map_map]
        rfl

/-- Two empty arguments at the start of a replacement list, and a third one that is pasted to
them. -/
theorem replacement_eq_filledIn_leading :
    ∃ d, ofCommandLine "F(a,b,c)=a ## b ## c x c" = .ok d ∧
      (d.replacement [[], [], [.plain (.name "z")]] (Scan.scanArgument .empty {} 5 0) [] 1).map
          (fun r => r.1.map Painted.word) = .ok [.name "z", .name "x", .name "z"] := by
  have hd : ofCommandLine "F(a,b,c)=a ## b ## c x c" =
      .ok ⟨"F", some ["a", "b", "c"], false, [.name "a", (Token.mark "##").afterSpace,
        (Token.name "b").afterSpace, (Token.mark "##").afterSpace, (Token.name "c").afterSpace,
        (Token.name "x").afterSpace, (Token.name "c").afterSpace]⟩ := by cbv
  refine ⟨_, hd, ?_⟩
  generalize hbody : (⟨"F", some ["a", "b", "c"], false, _⟩ : Definition) = d at hd
  generalize hactuals : ([[], [], [.plain (.name "z")]] : List (List Painted)) = actuals
  -- No macro is defined, so every argument expands to itself.
  have hscan : ∀ i counted, Scan.scanArgument .empty {} 5 0 (actuals.getD i []) counted =
      .ok (actuals.getD i [], counted) := by
    subst hactuals
    rintro (_ | _ | _ | i) counted <;> rfl
  have hexpands : Expands actuals (Scan.scanArgument .empty {} 5 0)
      (fun i => (actuals.getD i []).map Painted.word) := by
    intro i counted r hr
    rw [hscan] at hr
    cases hr
    rfl
  have hchains : chains d d.body =
      [[.parameter 0, .parameter 1, .parameter 2], [.token (Token.name "x").afterSpace],
        [.parameter 2]] := by
    subst hbody
    cbv
  have hanchored : d.IsAnchored actuals (fun i => (actuals.getD i []).map Painted.word) := by
    intro before o o' os after h words hwords
    rw [hchains] at h
    rcases before with _ | ⟨c, _ | ⟨c', _ | ⟨c'', before⟩⟩⟩ <;> simp at h
    obtain ⟨⟨rfl, rfl, rfl⟩, rfl⟩ := h
    cases hwords
    exact ⟨fun _ => rfl, by simp [Operand.isQuoted], by simp, fun _ _ => .inl rfl⟩
  rcases replacement_eq_filledIn (isRead_of_ofCommandLine hd) hexpands hanchored [] 1 with
    ⟨i, counted, e, -, herror, -⟩ | hfilled
  · rw [hscan] at herror
    cases herror
  · rw [hfilled, hchains, ← hactuals]
    rfl

/-- Two empty arguments at the start of a chain that another token stands before: what is pasted
to them is pasted to that token. -/
theorem replacement_ne_filledIn :
    ∃ d, ofCommandLine "F(a,b,c)=x a ## b ## c" = .ok d ∧
      (∀ table limits supply level hidden steps,
        (d.replacement [[], [], [.plain (.name "z")]] (Scan.scanArgument table limits supply level)
            hidden steps).map (fun r => r.1.map Painted.word) = .ok [.name "xz"]) ∧
      ∀ expansion, filledIn [[], [], [.plain (.name "z")]] expansion (chains d d.body) =
        .ok [.name "x", .name "z"] := by
  have hd : ofCommandLine "F(a,b,c)=x a ## b ## c" =
      .ok ⟨"F", some ["a", "b", "c"], false, [.name "x", (Token.name "a").afterSpace,
        (Token.mark "##").afterSpace, (Token.name "b").afterSpace, (Token.mark "##").afterSpace,
        (Token.name "c").afterSpace]⟩ := by cbv
  refine ⟨_, hd, fun table limits supply level hidden steps => ?_, fun expansion => ?_⟩
  · cbv
  · cbv

end Definition

end VariadicMacros
