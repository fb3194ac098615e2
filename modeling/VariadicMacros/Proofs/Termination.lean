/-
**Every expansion ends.**

No limit is needed to make an expansion finite: for every table that sources and command lines can
build and every text there are limits that the expansion stays within, and no higher limits change
its result.  The arguments of a call, and the text that is left when the call is replaced, are
lighter than the text with the call, and texts do not get lighter forever.  What has to be seen
besides is that the limits of finitely many scans can be met at once.  The walk over a replacement
list makes at most one argument scan a token, so a replacement costs what its arguments cost, once
for every token of the list.

Main definitions:

* `VariadicMacros.Within` — a result that no limit cut short, with a bound on its invocations;
* `VariadicMacros.Scan.EndsWithin` — limits within which the scan of a text ends;
* `VariadicMacros.Scan.Halts` — there are such limits.

Main results:

* `VariadicMacros.Substitution.within_replacement` — what a replacement list costs;
* `VariadicMacros.Scan.halts` — every scan halts;
* `VariadicMacros.MacroTable.Reachable.exists_expand_eq` — **every expansion ends**.
-/

import VariadicMacros.Proofs.Burden
import VariadicMacros.Proofs.RaisedLimits

set_option autoImplicit false

namespace VariadicMacros

open Scan (Uncut uncut_ok uncut_error isLimit_eq_false_of_uncut)

/-! ### Results within a bound -/

/-- A result that no limit cut short and whose count stays within a bound. -/
def Within {α : Type} (count : α → Nat) (bound : Nat) : Except MacroError α → Prop
  | .ok a => count a ≤ bound
  | .error e => e.isLimit = false

theorem Within.uncut {α : Type} {count : α → Nat} {bound : Nat} {r : Except MacroError α}
    (h : Within count bound r) : Uncut r := by
  cases r with
  | ok a => exact uncut_ok a
  | error e => exact uncut_error h

theorem Within.mono {α : Type} {count : α → Nat} {bound bound' : Nat} {r : Except MacroError α}
    (h : Within count bound r) (hle : bound ≤ bound') : Within count bound' r := by
  cases r with
  | ok a => exact Nat.le_trans h hle
  | error e => exact h

theorem Within.map {α β : Type} {count : α → Nat} {bound : Nat} {r : Except MacroError α}
    (h : Within count bound r) (f : α → β) {count' : β → Nat} {bound' : Nat}
    (hf : ∀ a, count a ≤ bound → count' (f a) ≤ bound') : Within count' bound' (r.map f) := by
  cases r with
  | ok a => exact hf a h
  | error e => exact h

/-- Every result that no limit cut short is within some bound. -/
theorem exists_within_of_uncut {α : Type} (count : α → Nat) {r : Except MacroError α}
    (h : Uncut r) : ∃ bound, Within count bound r := by
  cases r with
  | ok a => exact ⟨count a, Nat.le_refl _⟩
  | error e => exact ⟨0, isLimit_eq_false_of_uncut h⟩

namespace Substitution

/-! ### What a replacement list costs -/

theorem isLimit_eq_false_of_paste {out right : List Painted} {e : MacroError}
    (h : paste out right = .error e) : e.isLimit = false := by
  unfold paste at h
  split at h
  · cases h
  · cases h
  · split at h
    · cases h
    · cases h
      rfl

section Cost

variable {d : Definition} {actuals : List (List Painted)} {expandArgument : ExpandArgument}
  {limit cost : Nat}

/-- The expansion of every argument takes at most `cost` invocations as long as `limit` leaves
room for them. -/
def EndsWithin (actuals : List (List Painted)) (expandArgument : ExpandArgument)
    (limit cost : Nat) : Prop :=
  ∀ i steps, steps + cost ≤ limit →
    Within Prod.snd (steps + cost) (expandArgument (actuals.getD i []) steps)

theorem within_expansion (h : EndsWithin actuals expandArgument limit cost) (i : Nat) {w : Walk}
    (hw : w.steps + cost ≤ limit) :
    Within (fun r => r.2.steps) (w.steps + cost) (w.expansion expandArgument actuals i) := by
  unfold Walk.expansion
  cases w.expanded.lookup i with
  | some tokens => exact Nat.le_add_right _ _
  | none =>
      have hargument := h i w.steps hw
      cases hr : expandArgument (actuals.getD i []) w.steps with
      | error e =>
          rw [hr] at hargument
          exact hargument
      | ok r =>
          rw [hr] at hargument
          exact hargument

theorem within_carryOut (h : EndsWithin actuals expandArgument limit cost) (m : Move) {w : Walk}
    (hw : w.steps + cost ≤ limit) :
    Within Walk.steps (w.steps + cost) (m.carryOut actuals expandArgument w) := by
  cases m with
  | put tokens => exact Nat.le_add_right _ _
  | glue right =>
      simp only [Move.carryOut]
      cases hp : paste w.out right with
      | error e => exact isLimit_eq_false_of_paste hp
      | ok out => exact Nat.le_add_right _ _
  | expand i spaced => exact (within_expansion h i hw).map _ fun _ hsteps => hsteps

/-- A walk pays at most one argument for every token of the list. -/
theorem within_fill (h : EndsWithin actuals expandArgument limit cost) (body : List Token)
    (w : Walk) (hw : w.steps + body.length * cost ≤ limit) :
    Within Walk.steps (w.steps + body.length * cost) (fill d actuals expandArgument body w) := by
  revert hw
  refine walk_induction d actuals expandArgument
    (motive := fun body w => w.steps + body.length * cost ≤ limit →
      Within Walk.steps (w.steps + body.length * cost) (fill d actuals expandArgument body w))
    ?nil ?cons body w
  case nil =>
    intro w _
    rw [fill_nil]
    exact Nat.le_add_right _ _
  case cons =>
    intro t rest w ih hw
    rw [List.length_cons, Nat.succ_mul] at hw
    have hmove := within_carryOut h (nextMove d actuals t rest).1 (w := w) (by omega)
    rw [fill_eq_carryOut, List.length_cons, Nat.succ_mul]
    cases hw' : (nextMove d actuals t rest).1.carryOut actuals expandArgument w with
    | error e =>
        rw [hw'] at hmove
        exact hmove
    | ok w' =>
        rw [hw'] at hmove
        have hsteps : w'.steps ≤ w.steps + cost := hmove
        have hleft : (nextMove d actuals t rest).2.length * cost ≤ rest.length * cost :=
          Nat.mul_le_mul_right cost (nextMove_suffix d actuals t rest).length_le
        exact (ih w' hw' (by omega)).mono (by omega)

/-- A replacement costs at most one argument for every token of the replacement list. -/
theorem within_replacement (h : EndsWithin actuals expandArgument limit cost) {hidden : HideSet}
    {steps : Nat} (hsteps : steps + d.body.length * cost ≤ limit) :
    Within Prod.snd (steps + d.body.length * cost)
      (d.replacement actuals expandArgument hidden steps) := by
  have hfill := within_fill h d.body (d := d) ⟨[], [], steps⟩ hsteps
  unfold Definition.replacement
  cases hw : fill d actuals expandArgument d.body ⟨[], [], steps⟩ with
  | error e =>
      rw [hw] at hfill
      exact hfill
  | ok w =>
      rw [hw] at hfill
      exact hfill

end Cost

/-- The tokens of a replacement hide what the call hides. -/
theorem mem_hidden_of_replacement {d : Definition} {actuals : List (List Painted)}
    {expandArgument : ExpandArgument} {hidden : HideSet} {steps : Nat}
    {r : List Painted × Nat} (h : d.replacement actuals expandArgument hidden steps = .ok r) :
    ∀ p ∈ r.1, ∀ n ∈ hidden, n ∈ p.hidden := by
  unfold Definition.replacement at h
  split at h
  · cases h
  · next w _ =>
    cases h
    intro p hp n hn
    obtain ⟨q, _, rfl⟩ := List.mem_map.1 hp
    exact Painted.mem_hidden_hide.2 (.inr hn)

end Substitution

/-- Spacing changes no hide set. -/
theorem Painted.mem_hidden_respace {hidden : HideSet} {ps : List Painted} (spaced : Bool)
    (h : ∀ p ∈ ps, ∀ n ∈ hidden, n ∈ p.hidden) :
    ∀ p ∈ Painted.respace spaced ps, ∀ n ∈ hidden, n ∈ p.hidden := by
  cases ps with
  | nil => exact h
  | cons q ps =>
      intro p hp
      rcases List.mem_cons.1 hp with rfl | hp
      · exact h q List.mem_cons_self
      · exact h p (List.mem_cons_of_mem _ hp)

namespace Scan

variable {table : MacroTable}

/-! ### Limits that suffice -/

/-- The scan of a text ends within some limits. -/
def Halts (table : MacroTable) (text : List Painted) : Prop :=
  ∃ limits supply, Uncut (run table limits supply 0 0 [] text)

/-- The scan of a text ends within `cost` invocations and `depth` levels, wherever it starts. -/
def EndsWithin (table : MacroTable) (cost depth : Nat) (text : List Painted) : Prop :=
  ∀ (limits : Limits) (supply level steps : Nat), cost ≤ supply → level + depth ≤ limits.depth →
    steps + cost ≤ limits.steps →
    Within Prod.snd (steps + cost) (run table limits supply level steps [] text)

theorem EndsWithin.mono {cost cost' depth depth' : Nat} {text : List Painted}
    (h : EndsWithin table cost depth text) (hcost : cost ≤ cost') (hdepth : depth ≤ depth') :
    EndsWithin table cost' depth' text := by
  intro limits supply level steps hsupply hlevel hsteps
  exact (h limits supply level steps (by omega) (by omega) (by omega)).mono (by omega)

/-- The limits of one run suffice for all others. -/
theorem Halts.exists_endsWithin {text : List Painted} (h : Halts table text) :
    ∃ cost depth, EndsWithin table cost depth text := by
  obtain ⟨limits₀, supply₀, huncut⟩ := h
  obtain ⟨bound, hbound⟩ := exists_within_of_uncut Prod.snd huncut
  refine ⟨bound + limits₀.steps + supply₀, limits₀.depth, fun limits supply level steps hsupply
    hlevel hsteps => ?_⟩
  have hsteps' : steps + limits₀.steps ≤ limits.steps := by omega
  rw [run_resume hsteps' (by omega) (by omega) huncut]
  exact hbound.map _ fun r hle => Nat.add_le_add_left (by omega) steps

/-- Limits that suffice for each of finitely many texts suffice for all of them. -/
theorem exists_endsWithin_all {texts : List (List Painted)} (h : ∀ text ∈ texts, Halts table text) :
    ∃ cost depth, ∀ text ∈ texts, EndsWithin table cost depth text := by
  induction texts with
  | nil => exact ⟨0, 0, by simp⟩
  | cons text rest ih =>
      obtain ⟨cost, depth, hrest⟩ := ih fun a ha => h a (List.mem_cons_of_mem _ ha)
      obtain ⟨cost', depth', htext⟩ := (h text List.mem_cons_self).exists_endsWithin
      refine ⟨cost + cost', depth + depth', fun a ha => ?_⟩
      rcases List.mem_cons.1 ha with rfl | ha
      · exact htext.mono (by omega) (by omega)
      · exact (hrest a ha).mono (by omega) (by omega)

theorem endsWithin_nil (cost depth : Nat) : EndsWithin table cost depth [] := by
  intro limits supply level steps _ _ _
  have hadvance : advance table [] [] = ([], .finished) := rfl
  rw [run_of_finished hadvance]
  exact Nat.le_add_right _ _

/-- The argument scans of a call are affordable when its slots are. -/
theorem endsWithin_scanArgument {actuals : List (List Painted)} {cost depth : Nat}
    (h : ∀ a ∈ actuals, EndsWithin table cost depth a) {limits : Limits} {supply : Nat}
    (hsupply : cost ≤ supply) (hdepth : depth < limits.depth) :
    Substitution.EndsWithin actuals (scanArgument table limits supply 0) limits.steps cost := by
  intro i steps hsteps
  have hslot : EndsWithin table cost depth (actuals.getD i []) := by
    rw [List.getD_eq_getElem?_getD]
    cases hi : actuals[i]? with
    | none => exact endsWithin_nil cost depth
    | some a => exact h a (List.mem_of_getElem? hi)
  unfold scanArgument
  rw [if_neg (by omega)]
  exact hslot limits supply 1 steps hsupply (by omega) hsteps

/-! ### Every scan halts -/

theorem isLimit_eq_false_of_bind {d : Definition} {arguments : List (List Painted)}
    {e : MacroError} (h : d.bind arguments = .error e) : e.isLimit = false := by
  unfold Definition.bind at h
  split at h
  · cases h
  · split at h
    · split at h
      · cases h
      · split at h <;> cases h
    · cases h
      rfl

/-- A text halts when the slots of its first call and every text that may be left when the call is
replaced do. -/
theorem halts_of_call {out text : List Painted} {c : Call}
    (hadvance : advance table [] text = (out, .call c))
    (hactuals : ∀ actuals, c.definition.bind c.arguments = .ok actuals →
      ∀ a ∈ actuals, Halts table a)
    (hreplaced : ∀ replacement : List Painted, (∀ p ∈ replacement, ∀ n ∈ c.hidden, n ∈ p.hidden) →
      Halts table (replacement ++ c.rest)) : Halts table text := by
  cases hbind : c.definition.bind c.arguments with
  | error e =>
      refine ⟨⟨1, 0⟩, 1, ?_⟩
      rw [run_of_call hadvance Nat.zero_lt_one, hbind]
      exact uncut_error (isLimit_eq_false_of_bind hbind)
  | ok actuals =>
      obtain ⟨cost, depth, hends⟩ := exists_endsWithin_all (hactuals actuals hbind)
      obtain ⟨limits, hsteps, hwithin⟩ : ∃ limits : Limits, 0 < limits.steps ∧
          Uncut (c.definition.replacement actuals (scanArgument table limits cost 0)
            c.hidden 1) := by
        refine ⟨⟨1 + c.definition.body.length * cost, depth + 1⟩,
          Nat.add_pos_left Nat.one_pos _, ?_⟩
        exact (Substitution.within_replacement
          (endsWithin_scanArgument hends (Nat.le_refl cost) (Nat.lt_succ_self depth))
          (Nat.le_refl _)).uncut
      cases hr : c.definition.replacement actuals (scanArgument table limits cost 0) c.hidden 1 with
      | error e =>
          refine ⟨limits, cost + 1, ?_⟩
          rw [run_of_call hadvance hsteps, hbind]
          simp only [Nat.zero_add, hr]
          exact uncut_error (isLimit_eq_false_of_uncut (hr ▸ hwithin))
      | ok r =>
          obtain ⟨limits', supply, hrest⟩ := hreplaced (Painted.respace c.token.spaced r.1)
            (Painted.mem_hidden_respace _ (Substitution.mem_hidden_of_replacement hr))
          -- The limits of the replacement and of the text that it leaves are met together.
          refine ⟨⟨limits.steps + (r.2 + limits'.steps), limits.depth + limits'.depth⟩,
            cost + supply + 1, ?_⟩
          rw [run_of_call hadvance (Nat.add_pos_left hsteps _), hbind]
          simp only [Nat.zero_add]
          rw [replacement_eq_of_le (Nat.le_add_right _ _) (Nat.le_add_right _ _)
            (Nat.le_add_right cost supply) hwithin, hr]
          simp only
          rw [run_resume (Nat.le_add_left _ _) (by simp only; omega) (Nat.le_add_left supply cost)
            hrest]
          exact hrest.map _

/-- Every scan with a filed table halts. -/
theorem halts (hfiled : table.Filed) (text : List Painted) : Halts table text := by
  induction text using (Painted.wellFounded_lighter table.keys).induction with
  | _ text ih =>
      rcases hadvance : advance table [] text with ⟨out, stop⟩
      cases stop with
      | finished =>
          refine ⟨⟨0, 0⟩, 0, ?_⟩
          rw [run_of_finished hadvance]
          exact uncut_ok _
      | unterminated d =>
          refine ⟨⟨0, 0⟩, 0, ?_⟩
          rw [run_of_unterminated hadvance]
          exact uncut_error rfl
      | call c =>
          obtain ⟨before, last, htakes⟩ := exists_takes hadvance
          exact halts_of_call hadvance
            (fun actuals hbind a ha => ih a (htakes.lighter_argument table.keys
              (Definition.counted_sublist_of_bind hbind ha)))
            fun replacement hreplacement => ih _ (htakes.lighter_replaced hfiled hreplacement)

end Scan

/-! ### Every expansion ends -/

/-- The lexer knows no limits. -/
theorem Token.uncut_lexFrom (cs : List Char) (offset : Nat) (spaced : Bool) (done : List Token) :
    Uncut (Token.lexFrom offset spaced done cs) := by
  fun_induction Token.lexFrom offset spaced done cs with
  | case1 => exact uncut_ok _
  | case2 _ _ _ _ _ _ ih => exact ih
  | case3 => exact uncut_error rfl
  | case4 => exact uncut_error rfl
  | case5 _ _ _ _ _ _ _ _ _ _ ih => exact ih

namespace MacroTable

/-- The expansion of a text ends when the scan of its tokens halts. -/
theorem exists_expand_eq_of_halts {table : MacroTable} (text : String)
    (h : ∀ tokens, Token.lex text = .ok tokens →
      Scan.Halts table (tokens.map Painted.plain)) :
    ∃ (steps depth : Nat) (result : Except MacroError Expansion), Uncut result ∧
      ∀ limits : Limits, steps ≤ limits.steps → depth ≤ limits.depth →
        table.expand limits text = result := by
  unfold MacroTable.expand
  cases hlex : Token.lex text with
  | error e =>
      have huncut : Uncut (Token.lex text) := Token.uncut_lexFrom text.toList 0 false []
      exact ⟨0, 0, .error e, uncut_error (isLimit_eq_false_of_uncut (hlex ▸ huncut)),
        fun _ _ _ => rfl⟩
  | ok tokens =>
      obtain ⟨limits, supply, huncut⟩ := h tokens hlex
      refine ⟨limits.steps + supply, limits.depth,
        (Scan.run table limits supply 0 0 [] (tokens.map Painted.plain)).map fun r =>
          ⟨r.1.map Painted.toToken, r.2⟩, huncut.map _, fun limits' hsteps hdepth => ?_⟩
      have hlimits : 0 + limits.steps ≤ limits'.steps := by omega
      simp only [MacroTable.expandTokens]
      rw [Scan.run_resume hlimits (by omega) (by omega) huncut]
      cases Scan.run table limits supply 0 0 [] (tokens.map Painted.plain) with
      | error e => rfl
      | ok r => simp [Except.map]

/-- **Every expansion ends**: some limits let it come to its end, and whatever the limits are above
these, the result is the same. -/
theorem Reachable.exists_expand_eq {table : MacroTable} (h : table.Reachable) (text : String) :
    ∃ (steps depth : Nat) (result : Except MacroError Expansion),
      (∀ limit, result ≠ .error (.stepLimit limit)) ∧
      (∀ limit, result ≠ .error (.depthLimit limit)) ∧
      ∀ limits : Limits, steps ≤ limits.steps → depth ≤ limits.depth →
        table.expand limits text = result := by
  obtain ⟨steps, depth, result, huncut, hresult⟩ := exists_expand_eq_of_halts text
    fun tokens _ => Scan.halts h.filed (tokens.map Painted.plain)
  refine ⟨steps, depth, result, fun limit heq => ?_, fun limit heq => ?_, hresult⟩
  · cases huncut _ heq
  · cases huncut _ heq

/-- Two macros that call each other, and calls that reach past what replaces them. -/
theorem exists_expand_eq_mutual :
    ∃ table : MacroTable, table.Reachable ∧
      table["F"]? = some ⟨"F", some ["x"], false, [.name "x", (Token.name "G").afterSpace]⟩ ∧
      table["G"]? = some ⟨"G", none, false, [.name "F"]⟩ ∧
      ∃ (steps depth : Nat) (result : Except MacroError Expansion),
        (∀ limit, result ≠ .error (.stepLimit limit)) ∧
        (∀ limit, result ≠ .error (.depthLimit limit)) ∧
        ∀ limits : Limits, steps ≤ limits.steps → depth ≤ limits.depth →
          table.expand limits "F(G)(F(G))(G)" = result := by
  have hf : Definition.ofCommandLine "F(x)=x G" =
      .ok ⟨"F", some ["x"], false, [.name "x", (Token.name "G").afterSpace]⟩ := by cbv
  have hg : Definition.ofCommandLine "G=F" = .ok ⟨"G", none, false, [.name "F"]⟩ := by cbv
  have hreachable := (Reachable.empty.define "F(x)=x G").define "G=F"
  refine ⟨_, hreachable, ?_, ?_, hreachable.exists_expand_eq _⟩
  · simp [defineFrom, hf, hg, getElem?_define]
  · simp [defineFrom, hf, hg, getElem?_define]

end MacroTable

end VariadicMacros
