/-
**What holds of every token of an expansion.**

The tokens of an expansion come from the text, from replacement lists and from the commas between
the arguments of an ellipsis, or they are made by `#` and `##`.  A property of words that these
have therefore holds of every token that an expansion puts out: a walk over a replacement list
keeps it with every move, and a scan with every call.

Main definitions:

* `VariadicMacros.MacroTable.Keeps` — a property of words that expansion does not lose.

Main results:

* `VariadicMacros.Substitution.holds_carryOut` — one move keeps the property;
* `VariadicMacros.Scan.holds_run` — so does a scan;
* `VariadicMacros.MacroTable.Keeps.expand` — **the property holds of every token of an expansion**
  if it holds of those of the text.
-/

import VariadicMacros.Proofs.Burden
import VariadicMacros.Proofs.RaisedLimits

set_option autoImplicit false

namespace VariadicMacros

/-- A property of words that holds of the tokens of replacement lists and of commas, and that `#`
and `##` do not lose. -/
structure MacroTable.Keeps (table : MacroTable) (P : Word → Prop) : Prop where
  body : ∀ {name : String} {d : Definition}, table[name]? = some d → ∀ t ∈ d.body, P t.word
  comma : P (.mark ",")
  stringize : ∀ {argument : List Painted} (spaced : Bool), (∀ p ∈ argument, P p.word) →
    P (Substitution.stringize argument spaced).word
  join : ∀ {left right glued : Painted}, P left.word → P right.word →
    Substitution.join? left right = some glued → P glued.word

/-- Spacing changes no words. -/
theorem Painted.holds_respace {P : Word → Prop} {ps : List Painted} (h : ∀ p ∈ ps, P p.word)
    (spaced : Bool) : ∀ p ∈ Painted.respace spaced ps, P p.word := by
  cases ps with
  | nil => exact h
  | cons p ps =>
      rw [Painted.respace, List.forall_mem_cons]
      exact List.forall_mem_cons.1 h

namespace Substitution

variable {P : Word → Prop}

/-- A property of what a walk has put out and of the expansions that it remembers. -/
structure Walk.Holds (P : Word → Prop) (w : Walk) : Prop where
  out : ∀ p ∈ w.out, P p.word
  expanded : ∀ i tokens, w.expanded.lookup i = some tokens → ∀ p ∈ tokens, P p.word

/-- A property of the tokens that a move brings along. -/
def Move.Holds (P : Word → Prop) : Move → Prop
  | .put tokens => ∀ p ∈ tokens, P p.word
  | .glue right => ∀ p ∈ right, P p.word
  | .expand _ _ => True

theorem Walk.Holds.emit {w : Walk} (h : w.Holds P) {tokens : List Painted}
    (htokens : ∀ p ∈ tokens, P p.word) : (w.emit tokens).Holds P := by
  refine ⟨fun p hp => ?_, h.expanded⟩
  rcases List.mem_append.1 hp with hp | hp
  · exact htokens p (List.mem_reverse.1 hp)
  · exact h.out p hp

/-- Gluing keeps what `##` does not lose. -/
theorem holds_paste
    (hjoin : ∀ {left right glued : Painted}, P left.word → P right.word →
      join? left right = some glued → P glued.word)
    {out right out' : List Painted} (hout : ∀ p ∈ out, P p.word) (hright : ∀ p ∈ right, P p.word)
    (h : paste out right = .ok out') : ∀ p ∈ out', P p.word := by
  cases right with
  | nil =>
      cases h
      exact hout
  | cons r right =>
      cases out with
      | nil =>
          cases h
          exact fun p hp => hright p (List.mem_reverse.1 hp)
      | cons l out =>
          rw [paste] at h
          rw [List.forall_mem_cons] at hout hright
          cases hglued : join? l r with
          | none =>
              rw [hglued] at h
              cases h
          | some glued =>
              rw [hglued] at h
              cases h
              intro p hp
              rcases List.mem_append.1 hp with hp | hp
              · exact hright.2 p (List.mem_reverse.1 hp)
              · rcases List.mem_cons.1 hp with rfl | hp
                · exact hjoin hout.1 hright.1 hglued
                · exact hout.2 p hp

section Walks

variable {d : Definition} {actuals : List (List Painted)} {expandArgument : ExpandArgument}

theorem holds_getD (hactuals : ∀ a ∈ actuals, ∀ p ∈ a, P p.word) (i : Nat) :
    ∀ p ∈ actuals.getD i [], P p.word := by
  intro p hp
  rw [List.getD_eq_getElem?_getD] at hp
  cases hi : actuals[i]? with
  | none =>
      rw [hi] at hp
      cases hp
  | some a =>
      rw [hi] at hp
      exact hactuals a (List.mem_of_getElem? hi) p hp

theorem holds_emptyMove (hactuals : ∀ a ∈ actuals, ∀ p ∈ a, P p.word) (spaced : Bool)
    (ts : List Token) : (emptyMove d actuals spaced ts).1.Holds P := by
  cases ts with
  | nil => simp [emptyMove, Move.Holds]
  | cons after rest =>
      rw [emptyMove]
      split
      · exact Painted.holds_respace (holds_getD hactuals _) spaced
      · simp [Move.Holds]

/-- A move brings along tokens of the replacement list and of the arguments, and literals that
`#` makes of these. -/
theorem holds_nextMove (hactuals : ∀ a ∈ actuals, ∀ p ∈ a, P p.word)
    (hstringize : ∀ {argument : List Painted} (spaced : Bool), (∀ p ∈ argument, P p.word) →
      P (stringize argument spaced).word)
    {t : Token} {rest : List Token} (hbody : ∀ u ∈ t :: rest, P u.word) :
    (nextMove d actuals t rest).1.Holds P := by
  have hplain : ∀ u ∈ t :: rest, ∀ p ∈ [Painted.plain u], P p.word := by
    intro u hu p hp
    rw [List.mem_singleton.1 hp]
    exact hbody u hu
  cases rest with
  | nil =>
      rw [nextMove, plainMove]
      split
      · trivial
      · exact hplain t List.mem_cons_self
  | cons next rest =>
      rw [nextMove]
      split
      · intro p hp
        rw [List.mem_singleton.1 hp]
        exact hstringize t.spaced (holds_getD hactuals _)
      · split
        · show ∀ p ∈ rightOperand d actuals next, P p.word
          unfold rightOperand
          split
          · exact holds_getD hactuals _
          · exact hplain next (by simp)
        · split
          · exact hplain t List.mem_cons_self
          · split
            · split
              · exact holds_emptyMove hactuals t.spaced rest
              · exact Painted.holds_respace (holds_getD hactuals _) t.spaced
            · trivial

/-- **One move keeps the property** if the expansions of arguments have it. -/
theorem holds_carryOut
    (hjoin : ∀ {left right glued : Painted}, P left.word → P right.word →
      join? left right = some glued → P glued.word)
    (hexpand : ∀ i steps r, expandArgument (actuals.getD i []) steps = .ok r →
      ∀ p ∈ r.1, P p.word)
    {m : Move} (hm : m.Holds P) {w w' : Walk} (hw : w.Holds P)
    (h : m.carryOut actuals expandArgument w = .ok w') : w'.Holds P := by
  cases m with
  | put tokens =>
      cases h
      exact hw.emit hm
  | glue right =>
      rw [Move.carryOut] at h
      cases hpaste : paste w.out right with
      | error e =>
          rw [hpaste] at h
          cases h
      | ok out =>
          rw [hpaste] at h
          cases h
          exact ⟨holds_paste hjoin hw.out hm hpaste, hw.expanded⟩
  | expand i spaced =>
      rw [Move.carryOut] at h
      cases hlookup : w.expanded.lookup i with
      | some tokens =>
          rw [Walk.expansion, hlookup] at h
          cases h
          exact hw.emit (Painted.holds_respace (hw.expanded i tokens hlookup) spaced)
      | none =>
          rw [expansion_eq_map hlookup] at h
          cases hr : expandArgument (actuals.getD i []) w.steps with
          | error e =>
              rw [hr] at h
              cases h
          | ok r =>
              rw [hr] at h
              cases h
              have hfound := hexpand i w.steps r hr
              have hnew : Walk.Holds P ⟨w.out, (i, r.1) :: w.expanded, r.2⟩ := by
                refine ⟨hw.out, fun j tokens hj => ?_⟩
                rw [List.lookup_cons] at hj
                split at hj
                · cases hj
                  exact hfound
                · exact hw.expanded j tokens hj
              exact hnew.emit (Painted.holds_respace hfound spaced)

/-- So does a walk over a replacement list. -/
theorem holds_fill {table : MacroTable} (hkeeps : table.Keeps P)
    (hactuals : ∀ a ∈ actuals, ∀ p ∈ a, P p.word)
    (hexpand : ∀ i steps r, expandArgument (actuals.getD i []) steps = .ok r →
      ∀ p ∈ r.1, P p.word)
    {body : List Token} (hbody : ∀ t ∈ body, P t.word) {w w' : Walk} (hw : w.Holds P)
    (h : fill d actuals expandArgument body w = .ok w') : w'.Holds P := by
  refine walk_induction d actuals expandArgument
    (motive := fun body w => (∀ t ∈ body, P t.word) → w.Holds P →
      fill d actuals expandArgument body w = .ok w' → w'.Holds P)
    ?nil ?cons body w hbody hw h
  case nil =>
    intro w _ hw h
    rw [fill_nil] at h
    cases h
    exact hw
  case cons =>
    intro t rest w ih hbody hw h
    have hleft := (nextMove_suffix d actuals t rest).subset
    rw [fill_eq_carryOut] at h
    cases hmove : (nextMove d actuals t rest).1.carryOut actuals expandArgument w with
    | error e =>
        rw [hmove] at h
        cases h
    | ok w₁ =>
        rw [hmove] at h
        refine ih w₁ hmove (fun u hu => hbody u (List.mem_cons_of_mem t (hleft hu))) ?_ h
        exact holds_carryOut hkeeps.join hexpand
          (holds_nextMove hactuals hkeeps.stringize hbody) hw hmove

end Walks

end Substitution

/-- A replacement list that is filled in keeps the property. -/
theorem Definition.holds_replacement {table : MacroTable} {P : Word → Prop} (hkeeps : table.Keeps P)
    {d : Definition} (hbody : ∀ t ∈ d.body, P t.word) {actuals : List (List Painted)}
    (hactuals : ∀ a ∈ actuals, ∀ p ∈ a, P p.word) {expandArgument : Substitution.ExpandArgument}
    (hexpand : ∀ i steps r, expandArgument (actuals.getD i []) steps = .ok r →
      ∀ p ∈ r.1, P p.word)
    {hidden : HideSet} {steps : Nat} {r : List Painted × Nat}
    (h : d.replacement actuals expandArgument hidden steps = .ok r) : ∀ p ∈ r.1, P p.word := by
  rw [Substitution.replacement_eq_map] at h
  cases hw : Substitution.fill d actuals expandArgument d.body ⟨[], [], steps⟩ with
  | error e =>
      rw [hw] at h
      cases h
  | ok w =>
      rw [hw] at h
      cases h
      have hholds : w.Holds P :=
        Substitution.holds_fill hkeeps hactuals hexpand hbody ⟨by simp, by simp⟩ hw
      intro p hp
      obtain ⟨q, hq, rfl⟩ := List.mem_map.1 hp
      exact hholds.out q (List.mem_reverse.1 hq)

/-- The slots of a call hold tokens of its arguments, and commas. -/
theorem Definition.holds_bind {P : Word → Prop} (hcomma : P (.mark ",")) {d : Definition}
    {arguments actuals : List (List Painted)} (h : d.bind arguments = .ok actuals)
    (harguments : ∀ p ∈ Painted.counted arguments.flatten, P p.word) :
    ∀ a ∈ actuals, ∀ p ∈ a, P p.word := by
  intro a ha p hp
  by_cases hmark : p.isMark "," = true
  · rw [Painted.isMark_eq, decide_eq_true_eq] at hmark
    rw [hmark]
    exact hcomma
  · have hcounted : p ∈ Painted.counted a := List.mem_filter.2 ⟨hp, by simpa using hmark⟩
    exact harguments p ((Definition.counted_sublist_of_bind h ha).subset hcounted)

namespace Scan

variable {table : MacroTable} {P : Word → Prop}

/-- What a scan passes over is in the text or was put out before. -/
theorem mem_of_advance {out out' text : List Painted} {stop : Stop}
    (h : advance table out text = (out', stop)) : ∀ p ∈ out', p ∈ out ∨ p ∈ text := by
  induction text generalizing out with
  | nil =>
      cases h
      exact fun p => .inl
  | cons q rest ih =>
      rw [advance_cons] at h
      intro p hp
      cases hstop : stopAt? table q rest with
      | none =>
          rw [hstop] at h
          rcases ih h p hp with hp | hp
          · rcases List.mem_cons.1 hp with rfl | hp
            · exact .inr List.mem_cons_self
            · exact .inl hp
          · exact .inr (List.mem_cons_of_mem q hp)
      | some stop =>
          rw [hstop] at h
          cases h
          exact .inl hp

/-- **A scan keeps what the expansion of a table does not lose.** -/
theorem holds_run (hkeeps : table.Keeps P) {limits : Limits} {supply level steps : Nat}
    {out text : List Painted} (hout : ∀ p ∈ out, P p.word) (htext : ∀ p ∈ text, P p.word)
    {r : List Painted × Nat} (h : run table limits supply level steps out text = .ok r) :
    ∀ p ∈ r.1, P p.word := by
  -- Arguments are scanned, and what is left of the text, with a smaller supply.
  induction supply using Nat.strongRecOn generalizing level steps out text r with
  | _ supply ih =>
      rcases hadvance : advance table out text with ⟨out', stop⟩
      have hout' : ∀ p ∈ out', P p.word := fun p hp =>
        (mem_of_advance hadvance p hp).elim (hout p) (htext p)
      cases stop with
      | finished =>
          rw [run_of_finished hadvance] at h
          cases h
          exact fun p hp => hout' p (List.mem_reverse.1 hp)
      | unterminated d =>
          rw [run_of_unterminated hadvance] at h
          cases h
      | call c =>
          obtain ⟨supply, actuals, replaced, rfl, -, hactuals, hreplaced, h⟩ :=
            exists_of_run_call hadvance h
          obtain ⟨before, last, htakes⟩ := exists_takes hadvance
          obtain ⟨q, -, -, hdefinition⟩ := htakes.named
          have hsplit := htakes.split
          have hrest : ∀ p ∈ c.rest, P p.word := fun p hp => htext p (by simp [hsplit, hp])
          have harguments : ∀ p ∈ Painted.counted c.arguments.flatten, P p.word := fun p hp =>
            have hp := htakes.arguments_before.subset hp
            htext p (by simp [hsplit, (List.mem_filter.1 hp).1])
          have hslots := Definition.holds_bind hkeeps.comma hactuals harguments
          have hreplacement : ∀ p ∈ replaced.1, P p.word := by
            refine Definition.holds_replacement hkeeps (hkeeps.body hdefinition) hslots
              (fun i steps r hr => ?_) hreplaced
            unfold scanArgument at hr
            split at hr
            · cases hr
            · exact ih supply (Nat.lt_succ_self _) (by simp) (Substitution.holds_getD hslots i) hr
          refine ih supply (Nat.lt_succ_self _) hout' (fun p hp => ?_) h
          rcases List.mem_append.1 hp with hp | hp
          · exact Painted.holds_respace hreplacement _ p hp
          · exact hrest p hp

end Scan

/-- **What expansion does not lose holds of every token of an expansion** if it holds of those of
the text. -/
theorem MacroTable.Keeps.expand {table : MacroTable} {P : Word → Prop} (hkeeps : table.Keeps P)
    {limits : Limits} {text : String}
    (htext : ∀ tokens, Token.lex text = .ok tokens → ∀ t ∈ tokens, P t.word) {e : Expansion}
    (h : table.expand limits text = .ok e) : ∀ t ∈ e.tokens, P t.word := by
  obtain ⟨tokens, r, hlex, hrun, rfl⟩ := exists_of_expand h
  have hwords : ∀ p ∈ r.1, P p.word := by
    refine Scan.holds_run hkeeps (by simp) (fun p hp => ?_) hrun
    obtain ⟨t, ht, rfl⟩ := List.mem_map.1 hp
    exact htext tokens hlex t ht
  intro t ht
  obtain ⟨p, hp, rfl⟩ := List.mem_map.1 ht
  exact hwords p hp

end VariadicMacros
