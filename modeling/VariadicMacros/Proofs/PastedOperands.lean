/-
**Walks over operands that are pasted.**

While a walk pastes, the tokens that it has put out end with a left operand.  If the operand has
tokens, the last one put out is its last one, and `##` is applied to it; if it is a placemarker,
the walk may only paste to an empty operand, unless it has put out nothing at all.  With that one
proviso a walk over the operands of a chain does what gluing their cells does.

Main definitions:

* `VariadicMacros.Substitution.Ends` — what a walk has put out ends with given cells;
* `VariadicMacros.Substitution.Arrives` — a walk comes to some tokens with given words put out.

Main results:

* `VariadicMacros.Substitution.Ends.paste` — **a walk pastes as cells are glued**;
* `VariadicMacros.Substitution.arrives_tail` — **a walk glues operands one after the other**.
-/

import VariadicMacros.Proofs.Placemarkers
import VariadicMacros.Proofs.WalkMoves

set_option autoImplicit false

namespace VariadicMacros.Substitution

/-! ### The left operand of a walk -/

/-- What a walk has put out ends with the cells of a left operand, and `base` stands before
them. -/
inductive Ends (base : List Word) : List Painted → List Cell → Prop
  /-- The operand ends with the last token. -/
  | token {p : Painted} {out : List Painted} {cells : List Cell}
      (h : out.reverse.map Painted.word = base ++ cells.reduceOption) :
      Ends base (p :: out) (cells ++ [some p.word])
  /-- The operand is a placemarker. -/
  | placemarker {out : List Painted} (h : out.reverse.map Painted.word = base) :
      Ends base out [none]

namespace Ends

variable {base : List Word} {out : List Painted} {cells : List Cell}

theorem words (h : Ends base out cells) :
    out.reverse.map Painted.word = base ++ cells.reduceOption := by
  cases h with
  | token h => simp [h, List.reduceOption_append]
  | placemarker h => simp [h]

/-- An operand that is put out is the left operand. -/
theorem of_emit (h : out.reverse.map Painted.word = base) (ps : List Painted) :
    Ends base (ps.reverse ++ out) (cellsOf (ps.map Painted.word)) := by
  rcases List.eq_nil_or_concat ps with rfl | ⟨ps, p, rfl⟩
  · exact .placemarker h
  · rw [cellsOf_of_ne_nil (by simp), List.concat_eq_append, List.reverse_append, List.map_append,
      List.map_append]
    exact .token (by simp [h, List.reduceOption])

/-- Tokens that are put out may go on with a left operand that stands there. -/
theorem of_emit_append {ps : List Painted} (hne : ps ≠ [])
    (h : out.reverse.map Painted.word = base ++ cells.reduceOption) :
    Ends base (ps.reverse ++ out) (cells ++ (ps.map Painted.word).map some) := by
  obtain ⟨ps, p, rfl⟩ := (List.eq_nil_or_concat ps).resolve_left hne
  rw [List.concat_eq_append, List.reverse_append, List.map_append, List.map_append,
    ← List.append_assoc]
  exact .token (by simp [h, List.reduceOption])

/-- **A walk pastes as cells are glued**, unless a placemarker lets it paste to a token that stands
before the operand. -/
theorem paste (h : Ends base out cells) {right : List Painted}
    (hblank : cells = [none] → out = [] ∨ right = []) :
    match Substitution.paste out right with
    | .error e => glue cells (cellsOf (right.map Painted.word)) = .error e
    | .ok out' => ∃ cells', glue cells (cellsOf (right.map Painted.word)) = .ok cells' ∧
        Ends base out' cells' ∧ (cells' = [none] → cells = [none] ∧ out' = out) := by
  cases right with
  | nil =>
      have hglue : glue cells (cellsOf []) = .ok cells := by
        cases h with
        | token h => simp [glue, cellsOf, Cell.join, Except.map]
        | placemarker h => rfl
      exact ⟨cells, hglue, h, fun hcells => ⟨hcells, rfl⟩⟩
  | cons r right =>
      cases h with
      | @token p out cells h =>
          have hglue : glue (cells ++ [some p.word]) (cellsOf ((r :: right).map Painted.word)) =
              (Cell.join (some p.word) (some r.word)).map fun cell =>
                cells ++ cell :: (right.map Painted.word).map some := by
            simp [glue, cellsOf]
          have htexts : p.word.text ++ r.word.text = p.text ++ r.text := rfl
          rw [hglue, Cell.join, htexts]
          simp only [Substitution.paste, join?]
          cases Token.ofText? (p.text ++ r.text) with
          | none => rfl
          | some t =>
              refine ⟨_, rfl, ?_, fun hcells => ?_⟩
              · have hends := of_emit_append (List.cons_ne_nil
                  (⟨{ t with spaced := p.spaced }, p.hidden.inter r.hidden⟩ : Painted) right) h
                rwa [List.reverse_cons, List.append_assoc] at hends
              · have hmem : some t.word ∈ ([none] : List Cell) := by simp [← hcells]
                simp at hmem
      | placemarker h =>
          obtain rfl : out = [] := (hblank rfl).resolve_right (List.cons_ne_nil r right)
          refine ⟨cellsOf ((r :: right).map Painted.word), rfl, ?_, fun hcells => ?_⟩
          · simpa using of_emit h (r :: right)
          · simp [cellsOf] at hcells

end Ends

/-! ### Walks over operands that are pasted -/

/-- The words that a walk has put out. -/
def Walk.words (w : Walk) : List Word := w.out.reverse.map Painted.word

/-- The expansions that a walk remembers are those of the parameters. -/
def Walk.Recalls (expansion : Nat → List Word) (w : Walk) : Prop :=
  ∀ i tokens, w.expanded.lookup i = some tokens → tokens.map Painted.word = expansion i

/-- A walk over `ts` comes to the tokens `left` with the words `r` put out, or fails as `r` does. -/
def Arrives (d : Definition) (actuals : List (List Painted)) (expandArgument : ExpandArgument)
    (expansion : Nat → List Word) (ts : List Token) (w : Walk) (left : List Token) :
    Except MacroError (List Word) → Prop
  | .error e => fill d actuals expandArgument ts w = .error e
  | .ok words => ∃ w', fill d actuals expandArgument ts w = fill d actuals expandArgument left w' ∧
      w'.words = words ∧ w'.Recalls expansion

section Walks

variable {d : Definition} {actuals : List (List Painted)} {expandArgument : ExpandArgument}
  {expansion : Nat → List Word}

theorem Arrives.of_eq {ts ts' left : List Token} {w w' : Walk} {r : Except MacroError (List Word)}
    (h : fill d actuals expandArgument ts w = fill d actuals expandArgument ts' w')
    (harrives : Arrives d actuals expandArgument expansion ts' w' left r) :
    Arrives d actuals expandArgument expansion ts w left r := by
  cases r with
  | error e => exact h.trans harrives
  | ok words =>
      obtain ⟨w'', heq, hwords⟩ := harrives
      exact ⟨w'', h.trans heq, hwords⟩

/-- A walk at a `##` pastes the operand after it. -/
theorem fill_paste {op t : Token} (hop : op.isMark "##" = true) (more : List Token) (w : Walk) :
    fill d actuals expandArgument (op :: t :: more) w =
      match paste w.out ((plainOperand d t).tokens actuals) with
      | .error e => .error e
      | .ok out => fill d actuals expandArgument more { w with out := out } := by
  have hquote : op.isMark "#" = false := Token.isMark_of_ne hop (by decide)
  have hright : rightOperand d actuals t = (plainOperand d t).tokens actuals := by
    unfold rightOperand plainOperand
    cases d.parameterIndex? t <;> rfl
  rw [fill_eq_carryOut, nextMove, if_pos hop, hright]
  simp only [hquote, Bool.false_and, Bool.false_eq_true, if_false, Move.carryOut]
  cases paste w.out ((plainOperand d t).tokens actuals) <;> rfl

variable (d actuals expandArgument) in
/-- A walk at a `##` fails, or goes on after the operand, as the operand can be glued to the left
operand. -/
theorem fill_glue {op : Token} (hop : op.isMark "##" = true) (t : Token) (more : List Token)
    {w : Walk} {base : List Word} {cells : List Cell} (hends : Ends base w.out cells)
    (hblank : cells = [none] → w.out = [] ∨ (plainOperand d t).tokens actuals = []) :
    match glue cells (cellsOf ((plainOperand d t).words actuals)) with
    | .error e => fill d actuals expandArgument (op :: t :: more) w = .error e
    | .ok cells' => ∃ out, fill d actuals expandArgument (op :: t :: more) w =
          fill d actuals expandArgument more { w with out := out } ∧
        Ends base out cells' ∧ (cells' = [none] → cells = [none] ∧ out = w.out) := by
  have hpaste := hends.paste hblank
  rw [fill_paste hop]
  cases hp : paste w.out ((plainOperand d t).tokens actuals) with
  | error e =>
      rw [hp] at hpaste
      rw [Operand.words, hpaste]
  | ok out =>
      rw [hp] at hpaste
      obtain ⟨cells', hglue, hends', hstays⟩ := hpaste
      rw [Operand.words, hglue]
      exact ⟨out, rfl, hends', hstays⟩

/-- **A walk glues operands one after the other** to the left operand, as long as they are not all
empty with other tokens before them. -/
theorem arrives_tail (ts : List Token) {w : Walk} (hrecalls : w.Recalls expansion)
    {base : List Word} {cells : List Cell} (hends : Ends base w.out cells)
    (hquoted : ∀ o ∈ (readTail d ts).1, o.isQuoted = false)
    (hblank : cells = [none] → w.out = [] ∨ ∀ o ∈ (readTail d ts).1, o.tokens actuals = []) :
    Arrives d actuals expandArgument expansion ts w (readTail d ts).2
      ((gluedTo actuals cells (readTail d ts).1).map fun cells => base ++ cells.reduceOption) := by
  induction ts using readTail.induct d generalizing w cells with
  | case1 ts h =>
      rw [readTail_of_none h]
      exact ⟨w, rfl, hends.words, hrecalls⟩
  | case2 ts t rest h _ ih =>
      rw [readTail_of_some h] at hquoted hblank ⊢
      have hread := readOperand_of_not_quoted (hquoted _ List.mem_cons_self)
      obtain ⟨op, hop, rfl⟩ := eq_cons_of_afterPaste? h
      rw [hread] at hquoted hblank ih ⊢
      have hglue := fill_glue d actuals expandArgument hop t rest hends fun hcells =>
        (hblank hcells).imp_right fun hall => hall _ List.mem_cons_self
      rw [gluedTo_cons]
      cases hr : glue cells (cellsOf ((plainOperand d t).words actuals)) with
      | error e =>
          rw [hr] at hglue
          exact hglue
      | ok cells' =>
          rw [hr] at hglue
          obtain ⟨out, hfill, hends', hstays⟩ := hglue
          refine .of_eq hfill (ih (w := { w with out := out }) hrecalls hends'
            (fun o ho => hquoted o (List.mem_cons_of_mem _ ho)) fun hcells' => ?_)
          obtain ⟨hcells, rfl⟩ := hstays hcells'
          exact (hblank hcells).imp_right fun hall o ho => hall o (List.mem_cons_of_mem _ ho)

end Walks

end VariadicMacros.Substitution
