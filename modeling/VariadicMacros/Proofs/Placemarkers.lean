/-
**What `##` means, said with placemarkers.**

A replacement list is a sequence of chains, each of which is a list of operands with `##` between
them.  The operands of a chain are replaced first: a `#` with its parameter by the literal, a
parameter by its argument as written, and a parameter whose argument is empty by a placemarker.
Then the operators are applied from left to right, each to the last cell of what stands on its left
and the first cell of its right operand, where a placemarker gives way to the other side.  A
parameter that is a chain of its own is replaced by its expanded argument.  At the end the
placemarkers vanish.

A walk knows no placemarkers; it pastes to the last token that it has put out.  It does what the
operators ask for as long as that token belongs to the chain, and the chains for which it does are
called anchored.  A chain is not anchored when it starts with two empty arguments and goes on behind
other tokens: the next operand is then pasted to whatever stands before the chain.

Main definitions:

* `VariadicMacros.Substitution.chains` — the chains of a replacement list;
* `VariadicMacros.Substitution.glue` — what `##` does to cells;
* `VariadicMacros.Substitution.filledIn` — chains filled in with placemarkers;
* `VariadicMacros.Substitution.Anchored`, `VariadicMacros.Definition.IsAnchored` — the chains that
  a walk pastes as they ask for.

Main results:

* `VariadicMacros.Substitution.startsWithPaste_readChain` — a chain leaves no `##` over;
* `VariadicMacros.Substitution.filledCells_append` — chains are filled in one after the other.
-/

import VariadicMacros.Proofs.Words
import VariadicMacros.Substitution

set_option autoImplicit false

namespace VariadicMacros.Substitution

/-! ### Operands -/

/-- An operand of `##`. -/
inductive Operand
  | token (t : Token)
  /-- A `#` with the parameter at a position. -/
  | quoted (i : Nat)
  /-- The parameter at a position. -/
  | parameter (i : Nat)
  deriving DecidableEq, Repr

namespace Operand

/-- Whether an operand is a `#` with its parameter. -/
def isQuoted : Operand → Bool
  | .quoted _ => true
  | _ => false

/-- What an operand stands for, with no argument expanded. -/
def tokens (actuals : List (List Painted)) : Operand → List Painted
  | .token t => [.plain t]
  | .quoted i => [stringize (actuals.getD i []) false]
  | .parameter i => actuals.getD i []

/-- The words of an operand. -/
def words (actuals : List (List Painted)) (o : Operand) : List Word :=
  (o.tokens actuals).map Painted.word

end Operand

section Chains

variable (d : Definition)

/-- The operand that a single token is. -/
def plainOperand (t : Token) : Operand :=
  match d.parameterIndex? t with
  | some i => .parameter i
  | none => .token t

/-- The operand at the token `t` of a replacement list, and the tokens after it. -/
def readOperand (t : Token) : List Token → Operand × List Token
  | [] => (plainOperand d t, [])
  | next :: rest =>
    if t.isMark "#" && d.isFunctionLike && (d.parameterIndex? next).isSome then
      (.quoted ((d.parameterIndex? next).getD 0), rest)
    else (plainOperand d t, next :: rest)

theorem readOperand_suffix (t : Token) (rest : List Token) :
    (readOperand d t rest).2 <:+ rest := by
  cases rest with
  | nil => exact List.suffix_rfl
  | cons next rest =>
      rw [readOperand]
      split
      · exact List.suffix_cons next rest
      · exact List.suffix_rfl

variable {d}

/-- An operand that is no `#` with its parameter is a single token. -/
theorem readOperand_of_not_quoted {t : Token} {rest : List Token}
    (h : (readOperand d t rest).1.isQuoted = false) :
    readOperand d t rest = (plainOperand d t, rest) := by
  cases rest with
  | nil => rfl
  | cons next rest =>
      rw [readOperand] at h ⊢
      split
      · next hquoted =>
        rw [if_pos hquoted] at h
        cases h
      · rfl

theorem isQuoted_plainOperand (t : Token) : (plainOperand d t).isQuoted = false := by
  unfold plainOperand
  cases d.parameterIndex? t <;> rfl

/-- No `##` begins an operand that is a `#` with its parameter. -/
theorem isMark_of_isQuoted {t : Token} {rest : List Token}
    (h : (readOperand d t rest).1.isQuoted = true) : t.isMark "##" = false := by
  cases hpaste : t.isMark "##" with
  | false => rfl
  | true =>
      have hquote : t.isMark "#" = false := Token.isMark_of_ne hpaste (by decide)
      have hplain : (readOperand d t rest).1 = plainOperand d t := by
        cases rest with
        | nil => rfl
        | cons next rest => simp [readOperand, hquote]
      rw [hplain, isQuoted_plainOperand] at h
      cases h

theorem isMark_of_parameterIndex? {t : Token} {i : Nat} (h : d.parameterIndex? t = some i)
    (text : String) : t.isMark text = false := by
  unfold Definition.parameterIndex? at h
  split at h
  · next hkind => exact Token.isMark_of_identifier hkind text
  · cases h

theorem readOperand_of_parameterIndex? {t : Token} {i : Nat} (h : d.parameterIndex? t = some i)
    (rest : List Token) : readOperand d t rest = (.parameter i, rest) := by
  have hplain : plainOperand d t = .parameter i := by simp [plainOperand, h]
  cases rest with
  | nil => rw [readOperand, hplain]
  | cons next rest =>
      rw [readOperand, isMark_of_parameterIndex? h, hplain]
      simp

variable (d)

/-! ### Chains -/

/-- The token after a `##` and what stands after it; there is none at the end of a list. -/
def afterPaste? : List Token → Option (Token × List Token)
  | op :: t :: rest => if op.isMark "##" then some (t, rest) else none
  | _ => none

theorem eq_cons_of_afterPaste? {ts rest : List Token} {t : Token}
    (h : afterPaste? ts = some (t, rest)) :
    ∃ op, op.isMark "##" = true ∧ ts = op :: t :: rest := by
  unfold afterPaste? at h
  split at h
  · next op _ _ =>
    split at h
    · next hop =>
      cases h
      exact ⟨op, hop, rfl⟩
    · cases h
  · cases h

theorem readOperand_suffix_of_afterPaste? {ts rest : List Token} {t : Token}
    (h : afterPaste? ts = some (t, rest)) : (readOperand d t rest).2 <:+ ts := by
  obtain ⟨op, -, rfl⟩ := eq_cons_of_afterPaste? h
  exact (readOperand_suffix d t rest).trans
    ((List.suffix_cons t rest).trans (List.suffix_cons op _))

theorem length_readOperand_lt {ts rest : List Token} {t : Token}
    (h : afterPaste? ts = some (t, rest)) : (readOperand d t rest).2.length < ts.length := by
  obtain ⟨op, -, rfl⟩ := eq_cons_of_afterPaste? h
  have hle := (readOperand_suffix d t rest).length_le
  simp only [List.length_cons]
  omega

/-- The operands that are pasted to the one before `ts`, and the tokens after them.  What follows
a `##` is an operand, even if it is another `##`. -/
def readTail (ts : List Token) : List Operand × List Token :=
  match h : afterPaste? ts with
  | none => ([], ts)
  | some (t, rest) =>
    have := length_readOperand_lt d h
    ((readOperand d t rest).1 :: (readTail (readOperand d t rest).2).1,
      (readTail (readOperand d t rest).2).2)
  termination_by ts.length

variable {d}

theorem readTail_of_none {ts : List Token} (h : afterPaste? ts = none) :
    readTail d ts = ([], ts) := by
  rw [readTail]
  split
  · rfl
  · next h' => cases h.symm.trans h'

theorem readTail_of_some {ts rest : List Token} {t : Token} (h : afterPaste? ts = some (t, rest)) :
    readTail d ts =
      ((readOperand d t rest).1 :: (readTail d (readOperand d t rest).2).1,
        (readTail d (readOperand d t rest).2).2) := by
  rw [readTail]
  split
  · next h' => cases h.symm.trans h'
  · next h' =>
    cases h.symm.trans h'
    rfl

/-- What is left after the operands is the end of the list. -/
theorem readTail_suffix (ts : List Token) : (readTail d ts).2 <:+ ts := by
  induction ts using readTail.induct d with
  | case1 ts h =>
      rw [readTail_of_none h]
  | case2 ts t rest h _ ih =>
      rw [readTail_of_some h]
      exact ih.trans (readOperand_suffix_of_afterPaste? d h)

variable (d)

/-- The chain at the token `t` of a replacement list, and the tokens after it. -/
def readChain (t : Token) (rest : List Token) : List Operand × List Token :=
  ((readOperand d t rest).1 :: (readTail d (readOperand d t rest).2).1,
    (readTail d (readOperand d t rest).2).2)

theorem readChain_suffix (t : Token) (rest : List Token) : (readChain d t rest).2 <:+ rest :=
  (readTail_suffix _).trans (readOperand_suffix d t rest)

/-- The chains of a replacement list. -/
def chains : List Token → List (List Operand)
  | [] => []
  | t :: rest =>
    have := Nat.lt_succ_of_le (readChain_suffix d t rest).length_le
    (readChain d t rest).1 :: chains (readChain d t rest).2
  termination_by body => body.length

variable {d}

/-- Whether a `##` stands at the start of tokens. -/
def startsWithPaste (ts : List Token) : Bool := ts.head?.any (·.isMark "##")

/-- Whether a `##` stands at the end of tokens. -/
def endsWithPaste (ts : List Token) : Bool := ts.getLast?.any (·.isMark "##")

theorem endsWithPaste_suffix {ts us : List Token} (hsuffix : us <:+ ts)
    (h : endsWithPaste ts = false) : endsWithPaste us = false := by
  obtain ⟨before, rfl⟩ := hsuffix
  rcases List.eq_nil_or_concat us with rfl | ⟨us, t, rfl⟩
  · rfl
  · simpa [endsWithPaste] using h

/-- Where no operand can be pasted and no `##` stands at the end, none stands at the start. -/
theorem startsWithPaste_of_afterPaste? {ts : List Token} (hafter : afterPaste? ts = none)
    (hlast : endsWithPaste ts = false) : startsWithPaste ts = false := by
  match ts with
  | [] => rfl
  | [op] => simpa [endsWithPaste, startsWithPaste] using hlast
  | op :: t :: rest => simpa [afterPaste?, startsWithPaste] using hafter

theorem afterPaste?_readTail (ts : List Token) : afterPaste? (readTail d ts).2 = none := by
  induction ts using readTail.induct d with
  | case1 ts h => rw [readTail_of_none h, h]
  | case2 ts t rest h _ ih => rw [readTail_of_some h, ih]

/-- After a chain no `##` is left over. -/
theorem startsWithPaste_readChain {t : Token} {rest : List Token}
    (h : endsWithPaste (t :: rest) = false) : startsWithPaste (readChain d t rest).2 = false :=
  startsWithPaste_of_afterPaste? (afterPaste?_readTail _)
    (endsWithPaste_suffix ((readChain_suffix d t rest).trans (List.suffix_cons t rest)) h)

end Chains

/-! ### Cells -/

/-- A word, or a placemarker. -/
abbrev Cell := Option Word

/-- The cells of an operand: its words, or a placemarker if it has none. -/
def cellsOf : List Word → List Cell
  | [] => [none]
  | w :: ws => (w :: ws).map some

theorem eq_nil_of_cellsOf {ws : List Word} (h : cellsOf ws = [none]) : ws = [] := by
  cases ws with
  | nil => rfl
  | cons w ws => cases h

theorem cellsOf_of_ne_nil {ws : List Word} (h : ws ≠ []) : cellsOf ws = ws.map some := by
  cases ws with
  | nil => exact absurd rfl h
  | cons w ws => rfl

/-- Two cells side by side joined into one. -/
def Cell.join : Cell → Cell → Except MacroError Cell
  | none, right => .ok right
  | left, none => .ok left
  | some v, some w =>
    match Token.ofText? (v.text ++ w.text) with
    | some t => .ok (some t.word)
    | none => .error (.invalidPaste v.text w.text)

/-- Glues the last cell of `left` to the first cell of `right`. -/
def glue (left right : List Cell) : Except MacroError (List Cell) :=
  match left.reverse, right with
  | l :: left, r :: right => (Cell.join l r).map fun cell => left.reverse ++ cell :: right
  | _, _ => .ok (left ++ right)

section Filling

variable (actuals : List (List Painted)) (expansion : Nat → List Word)

/-- Operands glued one after the other to the cells on their left. -/
def gluedTo (cells : List Cell) (os : List Operand) : Except MacroError (List Cell) :=
  os.foldlM (fun cells o => glue cells (cellsOf (o.words actuals))) cells

theorem gluedTo_cons (cells : List Cell) (o : Operand) (os : List Operand) :
    gluedTo actuals cells (o :: os) =
      match glue cells (cellsOf (o.words actuals)) with
      | .error e => .error e
      | .ok cells => gluedTo actuals cells os := by
  rw [gluedTo, List.foldlM_cons]
  cases glue cells (cellsOf (o.words actuals)) <;> rfl

/-- The cells of a chain. -/
def chainCells : List Operand → Except MacroError (List Cell)
  | [] => .ok []
  | [.parameter i] => .ok ((expansion i).map some)
  | o :: os => gluedTo actuals (cellsOf (o.words actuals)) os

/-- The cells of chains one after the other. -/
def filledCells : List (List Operand) → Except MacroError (List Cell)
  | [] => .ok []
  | chain :: rest =>
    match chainCells actuals expansion chain with
    | .error e => .error e
    | .ok cells => (filledCells rest).map (cells ++ ·)

/-- Chains filled in, with all placemarkers gone. -/
def filledIn (cs : List (List Operand)) : Except MacroError (List Word) :=
  (filledCells actuals expansion cs).map List.reduceOption

variable {actuals expansion}

variable (actuals) in
/-- An operand that is no parameter stands for some token. -/
theorem tokens_ne_nil_of_parameterIndex? {d : Definition} {t : Token}
    (h : d.parameterIndex? t = none) (rest : List Token) :
    (readOperand d t rest).1.tokens actuals ≠ [] ∧
      ∀ i, (readOperand d t rest).1 ≠ .parameter i := by
  have hplain : plainOperand d t = .token t := by simp [plainOperand, h]
  cases rest with
  | nil => simp [readOperand, hplain, Operand.tokens]
  | cons next rest =>
      rw [readOperand, hplain]
      split <;> simp [Operand.tokens]

/-- An operand without tokens is a parameter with an empty argument. -/
theorem exists_parameter_of_tokens_eq_nil {d : Definition} {t : Token} {rest : List Token}
    (h : (readOperand d t rest).1.tokens actuals = []) :
    ∃ i, d.parameterIndex? t = some i ∧ actuals.getD i [] = [] := by
  cases hi : d.parameterIndex? t with
  | none => exact absurd h (tokens_ne_nil_of_parameterIndex? actuals hi rest).1
  | some i =>
      rw [readOperand_of_parameterIndex? hi] at h
      exact ⟨i, rfl, h⟩

/-- A placemarker gives way to the first operand that is glued to it. -/
theorem gluedTo_placemarker (o : Operand) (os : List Operand) :
    gluedTo actuals [none] (o :: os) = gluedTo actuals (cellsOf (o.words actuals)) os := by
  have hglue : glue [none] (cellsOf (o.words actuals)) = .ok (cellsOf (o.words actuals)) := by
    cases o.words actuals <;> rfl
  rw [gluedTo_cons, hglue]

/-- The cells of a chain are glued together, unless it is a parameter that stands alone. -/
theorem chainCells_cons {o : Operand} {os : List Operand} (h : ∀ i, o = .parameter i → os ≠ []) :
    chainCells actuals expansion (o :: os) = gluedTo actuals (cellsOf (o.words actuals)) os := by
  cases o with
  | token t => rfl
  | quoted i => rfl
  | parameter i =>
      cases os with
      | nil => exact absurd rfl (h i rfl)
      | cons o os => rfl

/-- Chains are filled in one after the other. -/
theorem filledCells_append {before : List (List Operand)} {cells : List Cell}
    (h : filledCells actuals expansion before = .ok cells) (cs : List (List Operand)) :
    filledCells actuals expansion (before ++ cs) =
      (filledCells actuals expansion cs).map (cells ++ ·) := by
  induction before generalizing cells with
  | nil =>
      cases h
      cases hcs : filledCells actuals expansion cs <;> simp [hcs, Except.map]
  | cons chain before ih =>
      rw [filledCells] at h
      rw [List.cons_append, filledCells]
      cases hchain : chainCells actuals expansion chain with
      | error e =>
          rw [hchain] at h
          cases h
      | ok first =>
          rw [hchain] at h
          simp only at h ⊢
          cases hbefore : filledCells actuals expansion before with
          | error e =>
              rw [hbefore] at h
              cases h
          | ok others =>
              rw [hbefore] at h
              cases h
              rw [ih hbefore]
              cases filledCells actuals expansion cs <;> simp [Except.map]

/-! ### Anchored chains -/

variable (actuals) in
/-- What it takes for a walk to fill in the chain of the operands `o`, `o'` and `os` as its
operators ask for; `blank` says that nothing has been put out before the chain. -/
structure Anchored (blank : Prop) (o o' : Operand) (os : List Operand) : Prop where
  /-- The second operand may be a `#` with its parameter only if the first one is empty; else the
  walk pastes the `#` alone. -/
  second_not_quoted : o.tokens actuals ≠ [] → o'.isQuoted = false
  /-- No further operand is a `#` with its parameter. -/
  rest_not_quoted : ∀ o'' ∈ os, o''.isQuoted = false
  /-- The operand after an empty one is not a `##`, which the walk takes for an operator. -/
  second_not_paste : o.tokens actuals = [] → ∀ t, o' = .token t → t.isMark "##" = false
  /-- Where the first two operands are empty, either all of them are, or nothing stands before the
  chain; else the walk pastes the next operand to what stands there. -/
  nil_nil : o.tokens actuals = [] → o'.tokens actuals = [] →
    blank ∨ ∀ o'' ∈ os, o''.tokens actuals = []

end Filling

end VariadicMacros.Substitution

namespace VariadicMacros

open Substitution

/-- Every chain of the replacement list is anchored, as long as those before it can be filled
in. -/
def Definition.IsAnchored (d : Definition) (actuals : List (List Painted))
    (expansion : Nat → List Word) : Prop :=
  ∀ before o o' os after, chains d d.body = before ++ (o :: o' :: os) :: after →
    ∀ words, filledIn actuals expansion before = .ok words → Anchored actuals (words = []) o o' os

end VariadicMacros
