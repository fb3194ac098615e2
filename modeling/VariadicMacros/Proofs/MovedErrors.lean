/-
**Texts that start later.**

What is read of a text does not depend on where the text starts, and neither does what is left of a
source without its comments: only the byte offset that an error reports moves along.

Main definitions:

* `VariadicMacros.MacroError.moved` — an error in a text that starts some bytes later;
* `VariadicMacros.Source.Context.moved` — a context of such a text.

Main results:

* `VariadicMacros.Source.stripFrom_moved` — **comments are replaced alike wherever a text starts**;
* `VariadicMacros.Token.lexChars_space_cons` — **a space before a text** is the space mark of its
  first token, and moves the error of a text that cannot be read by one byte.
-/

import VariadicMacros.Proofs.LexicalErrors
import VariadicMacros.Source

set_option autoImplicit false

namespace VariadicMacros

/-- The error of a text that starts `k` bytes later: a byte offset is `k` larger. -/
def MacroError.moved (k : Nat) : MacroError → MacroError
  | .unterminated what offset => .unterminated what (k + offset)
  | .unexpectedCharacter c offset => .unexpectedCharacter c (k + offset)
  | e => e

/-! ### Comments -/

namespace Source

/-- The context at a place of a text that starts `k` bytes later. -/
def Context.moved (k : Nat) : Context → Context
  | .slash start => .slash (k + start)
  | .blockComment start star => .blockComment (k + start) star
  | .code => .code
  | .lineComment => .lineComment
  | .literal quote escaped => .literal quote escaped

namespace Context

variable (k : Nat) (context : Context)

theorem moved_opened (c : Char) : (opened c).moved k = opened c := by
  unfold opened
  split <;> rfl

theorem next_moved (offset : Nat) (c : Char) :
    (context.moved k).next (k + offset) c = (context.next offset c).moved k := by
  cases context <;> simp only [next, apply_ite (moved k), moved_opened] <;> rfl

theorem leave_moved (c : Char) (left : List Char) :
    (context.moved k).leave c left = context.leave c left := by
  cases context <;> rfl

theorem finish_moved (left : List Char) :
    (context.moved k).finish left = (context.finish left).mapError (MacroError.moved k) := by
  cases context <;> rfl

end Context

/-- **Comments are replaced alike wherever a text starts.** -/
theorem stripFrom_moved (k : Nat) (context : Context) (offset : Nat) (left cs : List Char) :
    stripFrom (context.moved k) (k + offset) left cs =
      (stripFrom context offset left cs).mapError (MacroError.moved k) := by
  induction cs generalizing context offset left with
  | nil =>
      rw [stripFrom, stripFrom, Context.finish_moved]
      cases context.finish left <;> rfl
  | cons c cs ih =>
      rw [stripFrom, stripFrom, Context.next_moved, Context.leave_moved, Nat.add_assoc, ih]

end Source

/-! ### Tokens -/

namespace Token

theorem StopsAt.moved {offset : Nat} {cs : List Char} {e : MacroError} (h : StopsAt offset cs e)
    (k : Nat) : StopsAt (k + offset) cs (e.moved k) := by
  cases h with
  | unexpected hblank hnone => exact .unexpected hblank hnone
  | unterminated hquote hbody hrest => exact .unterminated hquote hbody hrest

/-- **A space before a text** is the space mark of its first token, and moves the error of a text
that cannot be read by one byte. -/
theorem lexChars_space_cons (cs : List Char) :
    lexChars (' ' :: cs) =
      match lexChars cs with
      | .error e => .error (e.moved 1)
      | .ok ts => .ok (respace true ts) := by
  have hspace : ' ' :: cs = (" " ++ String.ofList cs).toList := by simp
  cases h : lexChars cs with
  | ok ts =>
      rw [lexChars_eq_ok_iff] at h ⊢
      exact .blank (by decide) h.respace
  | error e =>
      rw [← String.toList_ofList (l := cs)] at h
      obtain ⟨before, after, htext, ⟨ts, hbefore⟩, hstops⟩ := lex_eq_error_iff.1 h
      rw [hspace]
      refine lex_eq_error_iff.2 ⟨" " ++ before, after, ?_, ⟨respace true ts, ?_⟩, ?_⟩
      · rw [htext, String.append_assoc]
      · rw [lex_eq_ok_iff] at hbefore ⊢
        rw [String.toList_append]
        exact Reads.blank (c := ' ') (by decide) hbefore.respace
      · rw [String.utf8ByteSize_append]
        exact hstops.moved 1

end Token

end VariadicMacros
