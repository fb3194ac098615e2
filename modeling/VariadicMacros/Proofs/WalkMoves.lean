/-
**A walk over a replacement list as a sequence of moves.**

At every place of a replacement list a walk does one of three things: it puts tokens out that are
already there, it glues an operand of `##` to what it has put out, or it expands an argument and
puts the result out.  Which of them it does, and how many tokens of the list it takes for it, is
read off the list alone; neither the tokens put out so far nor the expansions play a part.  What a
walk keeps is therefore shown for the three moves, and not for the branches of the walk.

Main definitions:

* `VariadicMacros.Substitution.Move` with `Move.carryOut`;
* `VariadicMacros.Substitution.nextMove` — the move at a place and the tokens after it.

Main results:

* `VariadicMacros.Substitution.fill_eq_carryOut` — **a walk carries out the next move and goes on**;
* `VariadicMacros.Substitution.walk_induction` — induction over the moves of a walk.
-/

import VariadicMacros.Substitution

set_option autoImplicit false

namespace VariadicMacros.Substitution

/-- What a walk does at one place of a replacement list. -/
inductive Move
  /-- Puts tokens out. -/
  | put (tokens : List Painted)
  /-- Glues tokens to what has been put out. -/
  | glue (right : List Painted)
  /-- Expands the argument of a parameter and puts the result out. -/
  | expand (i : Nat) (spaced : Bool)

/-- What a move makes of the state of a walk. -/
def Move.carryOut (actuals : List (List Painted)) (expandArgument : ExpandArgument) (w : Walk) :
    Move → Except MacroError Walk
  | .put tokens => .ok (w.emit tokens)
  | .glue right => (paste w.out right).map fun out => { w with out := out }
  | .expand i spaced =>
    (w.expansion expandArgument actuals i).map fun r => r.2.emit (Painted.respace spaced r.1)

section Moves

variable (d : Definition) (actuals : List (List Painted))

/-- The right operand of a `##` that the token `t` follows. -/
def rightOperand (t : Token) : List Painted :=
  match d.parameterIndex? t with
  | some i => actuals.getD i []
  | none => [.plain t]

/-- The move of a token to which no operator applies. -/
def plainMove (t : Token) : Move :=
  match d.parameterIndex? t with
  | some i => .expand i t.spaced
  | none => .put [.plain t]

/-- The move of a parameter with an empty argument that a `##` follows: the operator is dropped,
and a parameter after it is put out unexpanded. -/
def emptyMove (spaced : Bool) : List Token → Move × List Token
  | [] => (.put [], [])
  | after :: rest =>
    match d.parameterIndex? after with
    | some j => (.put (Painted.respace spaced (actuals.getD j [])), rest)
    | none => (.put [], after :: rest)

/-- The move at the token `t` of a replacement list, and the tokens that it leaves. -/
def nextMove (t : Token) : List Token → Move × List Token
  | [] => (plainMove d t, [])
  | next :: rest =>
    if t.isMark "#" && d.isFunctionLike && (d.parameterIndex? next).isSome then
      (.put [stringize (actuals.getD ((d.parameterIndex? next).getD 0) []) t.spaced], rest)
    else if t.isMark "##" then (.glue (rightOperand d actuals next), rest)
    else
      match d.parameterIndex? t with
      | none => (.put [.plain t], next :: rest)
      | some i =>
        if next.isMark "##" then
          if (actuals.getD i []).isEmpty then emptyMove d actuals t.spaced rest
          else (.put (Painted.respace t.spaced (actuals.getD i [])), next :: rest)
        else (.expand i t.spaced, next :: rest)

theorem emptyMove_suffix (spaced : Bool) (ts : List Token) :
    (emptyMove d actuals spaced ts).2 <:+ ts := by
  cases ts with
  | nil => exact List.suffix_refl _
  | cons after rest =>
      rw [emptyMove]
      split
      · exact List.suffix_cons after rest
      · exact List.suffix_refl _

/-- A move takes the token at its place, and leaves the end of what follows. -/
theorem nextMove_suffix (t : Token) (rest : List Token) :
    (nextMove d actuals t rest).2 <:+ rest := by
  cases rest with
  | nil => exact List.suffix_refl _
  | cons next rest =>
      rw [nextMove]
      split
      · exact List.suffix_cons next rest
      · split
        · exact List.suffix_cons next rest
        · split
          · exact List.suffix_refl _
          · split
            · split
              · exact (emptyMove_suffix d actuals t.spaced rest).trans (List.suffix_cons next rest)
              · exact List.suffix_refl _
            · exact List.suffix_refl _

end Moves

variable {d : Definition} {actuals : List (List Painted)} {expandArgument : ExpandArgument}

theorem fill_nil (w : Walk) : fill d actuals expandArgument [] w = .ok w := by rw [fill]

theorem emit_nil (w : Walk) : w.emit [] = w := by
  simp [Walk.emit]

/-- **A walk carries out the next move and goes on.** -/
theorem fill_eq_carryOut (t : Token) (rest : List Token) (w : Walk) :
    fill d actuals expandArgument (t :: rest) w =
      match (nextMove d actuals t rest).1.carryOut actuals expandArgument w with
      | .error e => .error e
      | .ok w => fill d actuals expandArgument (nextMove d actuals t rest).2 w := by
  cases rest with
  | nil =>
      rw [fill.eq_def, nextMove, plainMove]
      simp only [fill_nil]
      cases d.parameterIndex? t with
      | none => rfl
      | some i =>
          simp only [Move.carryOut]
          cases w.expansion expandArgument actuals i <;> rfl
  | cons next rest =>
      rw [fill.eq_def, nextMove]
      simp only
      split
      · rfl
      · split
        · simp only [Move.carryOut, rightOperand]
          cases d.parameterIndex? next with
          | none => cases paste w.out [.plain next] <;> rfl
          | some i => cases paste w.out (actuals.getD i []) <;> rfl
        · cases d.parameterIndex? t with
          | none => rfl
          | some i =>
              simp only
              split
              · split
                · cases rest with
                  | nil => simp [emptyMove, Move.carryOut, emit_nil, fill_nil]
                  | cons after rest =>
                      simp only [emptyMove]
                      cases d.parameterIndex? after with
                      | none => simp only [Move.carryOut, emit_nil]
                      | some j => rfl
                · rfl
              · simp only [Move.carryOut]
                cases w.expansion expandArgument actuals i <;> rfl

variable (d actuals expandArgument) in
/-- Induction over the moves of a walk. -/
theorem walk_induction {motive : List Token → Walk → Prop} (nil : ∀ w, motive [] w)
    (cons : ∀ t rest w,
      (∀ w', (nextMove d actuals t rest).1.carryOut actuals expandArgument w = .ok w' →
        motive (nextMove d actuals t rest).2 w') → motive (t :: rest) w)
    (body : List Token) (w : Walk) : motive body w := by
  induction hn : body.length using Nat.strongRecOn generalizing body w with
  | _ n ih =>
      cases body with
      | nil => exact nil w
      | cons t rest =>
          refine cons t rest w fun w' _ => ih _ ?_ _ w' rfl
          have hle := (nextMove_suffix d actuals t rest).length_le
          rw [List.length_cons] at hn
          omega

end VariadicMacros.Substitution
