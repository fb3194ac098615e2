/-
**Texts without comments.**

Two scanners look for literals: the one that replaces comments and the lexer.  The first one takes
every text; for it a literal ends at its quote, or at the end of its line if the quote is missing.
The second one only takes literals that are closed.  Between the quotes both follow the same rules,
so a literal of the lexer is one for the other scanner, and a comment sign in it is text.

A text without comments is one in which no comment begins outside of such literals.  It is left as
it is, and what is left of any other text is without comments: a slash that is kept stands before
the same character as before, because a comment leaves a blank in its place, or ends the text.

Main definitions:

* `VariadicMacros.Source.BeginsComment` — a text begins with a comment sign;
* `VariadicMacros.Source.CommentFree` — a text in which no comment begins outside of literals;
* `VariadicMacros.Source.Context.CommentFreeAfter` — what such a text may go on with.

Main results:

* `VariadicMacros.Source.stripComments_eq_self_iff` — the texts that are left as they are;
* `VariadicMacros.Source.commentFree_of_stripComments` — what is left is without comments;
* `VariadicMacros.Source.commentFree_laidOut` — tokens are without comments if no comment sign
  stands outside of the literals among them;
* `VariadicMacros.Source.stripComments_stable` — **replacing comments is stable and agrees with the
  lexer about literals**.
-/

import VariadicMacros.Proofs.CollapsedGaps
import VariadicMacros.Proofs.LoadedLines
import VariadicMacros.Proofs.Stringizing

set_option autoImplicit false

namespace VariadicMacros

open Text

namespace Source

open Lexeme (LiteralBody)

/-! ### Texts without comments -/

/-- A comment sign stands at the start of a text. -/
def BeginsComment (cs : List Char) : Prop := ['/', '/'] <+: cs ∨ ['/', '*'] <+: cs

instance (cs : List Char) : Decidable (BeginsComment cs) := inferInstanceAs (Decidable (_ ∨ _))

theorem beginsComment_cons_iff {c : Char} {cs : List Char} :
    BeginsComment (c :: cs) ↔ c = '/' ∧ (cs.head? = some '/' ∨ cs.head? = some '*') := by
  cases cs <;> simp [BeginsComment, List.cons_prefix_cons, eq_comm, ← and_or_left]

/-- No comment begins in a text outside of its literals.  A literal ends at its quote or with its
line, or it is still open at the end of the text. -/
inductive CommentFree : List Char → Prop
  | nil : CommentFree []
  | plain {c : Char} {cs : List Char} (hquote : ¬(c = '"' ∨ c = '\''))
      (hcomment : ¬BeginsComment (c :: cs)) (h : CommentFree cs) : CommentFree (c :: cs)
  | literal {quote close : Char} {body cs : List Char} (hquote : quote = '"' ∨ quote = '\'')
      (hbody : LiteralBody quote body) (hclose : close = quote ∨ close = '\n')
      (h : CommentFree cs) : CommentFree (quote :: (body ++ close :: cs))
  | openLiteral {quote : Char} {body rest : List Char} (hquote : quote = '"' ∨ quote = '\'')
      (hbody : LiteralBody quote body) (hrest : rest = [] ∨ rest = ['\\']) :
      CommentFree (quote :: (body ++ rest))

/-- A character that begins neither a comment nor a literal is kept. -/
theorem stripFrom_code_of_not_beginsComment {c : Char} {cs : List Char}
    (hquote : ¬(c = '"' ∨ c = '\'')) (hcomment : ¬BeginsComment (c :: cs)) (offset : Nat)
    (left : List Char) :
    stripFrom .code offset left (c :: cs) =
      stripFrom .code (offset + c.utf8Size) (c :: left) cs := by
  by_cases hc : c = '/'
  · subst hc
    rw [beginsComment_cons_iff, not_and, not_or] at hcomment
    cases cs with
    | nil => simp [stripFrom, Context.next, Context.leave, Context.finish]
    | cons d cs =>
        -- The slash is kept back until the next character shows that no comment begins.
        have hd : d ≠ '/' ∧ d ≠ '*' := by simpa using hcomment rfl
        simp [stripFrom, Context.next, Context.leave, hd.1, hd.2]
  · exact stripFrom_code_cons hc hquote offset left cs

/-- **A text without comments is left as it is.** -/
theorem CommentFree.stripFrom_eq {cs : List Char} (h : CommentFree cs) (offset : Nat)
    (left : List Char) : stripFrom .code offset left cs = .ok (left.reverse ++ cs) := by
  induction h generalizing offset left with
  | nil => simp [stripFrom, Context.finish, Except.map]
  | plain hquote hcomment _ ih =>
      rw [stripFrom_code_of_not_beginsComment hquote hcomment, ih]
      simp
  | @literal quote close body cs hquote hbody hclose _ ih =>
      obtain ⟨offset', hrest⟩ := Leaves.literal hquote hbody hclose offset left cs
      have happ : quote :: (body ++ close :: cs) = quote :: (body ++ [close]) ++ cs := by simp
      rw [happ, hrest, ih]
      simp
  | @openLiteral quote body rest hquote hbody hrest =>
      obtain ⟨offset', hopen⟩ := stripFrom_quote hquote hbody offset left rest
      rw [hopen]
      rcases hrest with rfl | rfl <;>
        simp [stripFrom, Context.next, Context.leave, Context.finish, Except.map]

/-! ### What is left of a text -/

namespace Context

/-- Whether what is left of the rest of a text completes a text without comments, where the context
is the one in which the rest stands.  After the beginning of a literal this has to be so whatever
the literal holds. -/
def CommentFreeAfter : Context → List Char → Prop
  | .literal quote false, cs => (quote = '"' ∨ quote = '\'') → ∀ body, LiteralBody quote body →
      CommentFree (quote :: (body ++ cs))
  | .literal quote true, cs => (quote = '"' ∨ quote = '\'') → ∀ body, LiteralBody quote body →
      CommentFree (quote :: (body ++ '\\' :: cs))
  | _, cs => CommentFree cs

/-- A character that begins no comment goes before what its context goes on with. -/
theorem CommentFreeAfter.of_opened {c : Char} {cs : List Char} (h : (opened c).CommentFreeAfter cs)
    (hc : c ≠ '/') : CommentFree (c :: cs) := by
  unfold opened at h
  split at h
  · next hquote => exact h hquote [] .nil
  · next hquote =>
    exact .plain hquote (fun hcomment => hc (beginsComment_cons_iff.1 hcomment).1) h

/-- **What is left of one character** goes before what is left of the rest. -/
theorem CommentFreeAfter.of_next {context : Context} {offset : Nat} {c : Char} {cs : List Char}
    (h : (context.next offset c).CommentFreeAfter cs) :
    context.CommentFreeAfter ((context.leave c []).reverse ++ cs) := by
  have hplain : ∀ {d : Char}, d = '\n' ∨ d = ' ' → CommentFree cs → CommentFree (d :: cs) := by
    intro d hd hcs
    refine .plain ?_ (fun hcomment => ?_) hcs
    · rcases hd with rfl | rfl <;> decide
    · rw [beginsComment_cons_iff] at hcomment
      rcases hd with rfl | rfl <;> exact absurd hcomment.1 (by decide)
  cases context with
  | code =>
      simp only [next, leave] at h ⊢
      split at h
      · next hc =>
        rw [if_pos hc]
        exact h
      · next hc =>
        rw [if_neg hc]
        exact h.of_opened hc
  | slash start =>
      simp only [next, leave] at h ⊢
      split at h
      · next hc =>
        rw [if_pos (.inl hc)]
        exact h
      · next hslash =>
        split at h
        · next hc =>
          rw [if_pos (.inr hc)]
          exact h
        · next hstar =>
          -- The slash that was kept back stands before a character that begins no comment with it.
          rw [if_neg (not_or.2 ⟨hslash, hstar⟩)]
          refine .plain (by decide) (fun hcomment => ?_) (h.of_opened hslash)
          rw [beginsComment_cons_iff] at hcomment
          simp [hslash, hstar] at hcomment
  | lineComment =>
      simp only [next, leave] at h ⊢
      split at h
      · next hc =>
        rw [if_pos hc]
        exact hplain (.inl hc) h
      · next hc =>
        rw [if_neg hc]
        exact h
  | blockComment start star =>
      simp only [next, leave] at h ⊢
      split at h
      · next hc =>
        rw [if_pos hc]
        exact hplain (.inr rfl) h
      · next hc =>
        rw [if_neg hc]
        exact h
  | literal quote escaped =>
      cases escaped with
      | true =>
          intro hquote body hbody
          have hrest := h hquote (body ++ ['\\', c]) (hbody.append (.escaped c .nil))
          simpa [leave] using hrest
      | false =>
          intro hquote body hbody
          simp only [next, leave, Bool.false_eq_true, if_false] at h ⊢
          split at h
          · next hc =>
            rw [hc]
            exact h hquote body hbody
          · next hescape =>
            split at h
            · next hclose => exact .literal hquote hbody hclose h
            · next hclose =>
              have hc : c ≠ '\\' ∧ c ≠ quote ∧ c ≠ '\n' := ⟨hescape, not_or.1 hclose⟩
              have hrest := h hquote (body ++ [c]) (hbody.append (.plain hc .nil))
              simpa using hrest

/-- What is left at the end of a text. -/
theorem commentFreeAfter_of_finish {context : Context} {ds : List Char}
    (h : context.finish [] = .ok ds) : context.CommentFreeAfter ds.reverse := by
  cases context with
  | code => cases h; exact .nil
  | slash start => cases h; exact .plain (by decide) (by decide) .nil
  | lineComment => cases h; exact .nil
  | blockComment start star => cases h
  | literal quote escaped =>
      cases h
      cases escaped with
      | true => exact fun hquote body hbody => .openLiteral hquote hbody (.inr rfl)
      | false => exact fun hquote body hbody => .openLiteral hquote hbody (.inl rfl)

end Context

/-- What is left of the rest of a text completes a text without comments. -/
theorem commentFreeAfter_of_stripFrom {context : Context} {offset : Nat} {cs ds : List Char}
    (h : stripFrom context offset [] cs = .ok ds) : context.CommentFreeAfter ds := by
  induction cs generalizing context offset ds with
  | nil =>
      rw [stripFrom] at h
      cases hfinish : context.finish [] with
      | error e =>
          rw [hfinish] at h
          cases h
      | ok left =>
          rw [hfinish] at h
          cases h
          exact Context.commentFreeAfter_of_finish hfinish
  | cons c cs ih =>
      rw [stripFrom, stripFrom_eq_map] at h
      cases hrest : stripFrom (context.next offset c) (offset + c.utf8Size) [] cs with
      | error e =>
          rw [hrest] at h
          cases h
      | ok es =>
          rw [hrest] at h
          cases h
          exact (ih hrest).of_next

/-- **What is left of a text is without comments.** -/
theorem commentFree_of_stripComments {cs ds : List Char} (h : stripComments cs = .ok ds) :
    CommentFree ds :=
  commentFreeAfter_of_stripFrom h

/-- **The texts that are left as they are** are those without comments. -/
theorem stripComments_eq_self_iff {cs : List Char} : stripComments cs = .ok cs ↔ CommentFree cs :=
  ⟨commentFree_of_stripComments, fun h => h.stripFrom_eq 0 []⟩

/-! ### Texts that are put together -/

/-- Characters that begin neither comments nor literals go before a text without comments. -/
theorem CommentFree.append {cs ds : List Char} (h : CommentFree ds)
    (hquote : ∀ c ∈ cs, ¬(c = '"' ∨ c = '\''))
    (hcomment : ∀ i < cs.length, ¬BeginsComment ((cs ++ ds).drop i)) : CommentFree (cs ++ ds) := by
  induction cs with
  | nil => exact h
  | cons c cs ih =>
      rw [List.forall_mem_cons] at hquote
      refine .plain hquote.1 (hcomment 0 (by simp)) (ih hquote.2 fun i hi => ?_)
      exact hcomment (i + 1) (by simpa using hi)

/-- Blanks go before a text without comments. -/
theorem CommentFree.append_blank {cs ds : List Char} (h : CommentFree ds)
    (hblank : ∀ c ∈ cs, isBlank c = true) : CommentFree (cs ++ ds) := by
  induction cs with
  | nil => exact h
  | cons c cs ih =>
      rw [List.forall_mem_cons] at hblank
      refine .plain ?_ (fun hcomment => ?_) (ih hblank.2)
      · rintro (rfl | rfl) <;> cases hblank.1
      · rw [(beginsComment_cons_iff.1 hcomment).1] at hblank
        cases hblank.1

open Token (Placed laidOut IsMunch isMunch_cons_iff StandsInLiteral standsInLiteral_cons_iff)

/-- **Tokens are without comments** if no comment sign begins outside of the literals among
them. -/
theorem commentFree_laidOut {ps : List Placed} {last : List Char} (h : IsMunch ps last)
    (hplaces : ∀ i, BeginsComment ((laidOut ps last).drop i) → StandsInLiteral ps i) :
    CommentFree (laidOut ps last) := by
  induction ps with
  | nil => simpa using CommentFree.nil.append_blank h.blank_last
  | cons p ps ih =>
      obtain ⟨hblank, -, ⟨hlexeme, -⟩, hps⟩ := isMunch_cons_iff.1 h
      have hdrop : ∀ i, (laidOut (p :: ps) last).drop (p.gap.length + i) =
          (p.token.text.toList ++ laidOut ps last).drop i := by
        intro i
        rw [Token.laidOut_cons, List.drop_length_add_append]
      -- The places of the other tokens are moved by the first one.
      have hrest : CommentFree (laidOut ps last) := by
        refine ih hps fun i hi => ?_
        have hmoved : BeginsComment ((laidOut (p :: ps) last).drop
            (p.gap.length + (p.token.text.toList.length + i))) := by
          rwa [hdrop, List.drop_length_add_append]
        rcases standsInLiteral_cons_iff.1 (hplaces _ hmoved) with ⟨-, -, hlt⟩ | ⟨-, hin⟩
        · omega
        · simpa [← Nat.add_assoc] using hin
      rw [Token.laidOut_cons]
      refine CommentFree.append_blank ?_ hblank
      by_cases hkind : p.token.kind = .literal
      · rw [hkind] at hlexeme
        obtain ⟨quote, body, hquote, hbody, htext⟩ := Lexeme.isQuoted_iff.1 hlexeme
        rw [htext, List.cons_append, List.append_assoc, List.singleton_append]
        exact .literal hquote hbody (.inl rfl) hrest
      · refine hrest.append (Lexeme.ne_quote_of_isLexeme hlexeme hkind) fun i hi hcomment => ?_
        have hplace := hplaces (p.gap.length + i) (by rwa [hdrop])
        rcases standsInLiteral_cons_iff.1 hplace with ⟨hliteral, -⟩ | ⟨hle, -⟩
        · exact hkind hliteral
        · omega

/-- **Replacing comments is stable and agrees with the lexer about literals.**  What is left of a
text is without comments, so that replacing them once more changes nothing.  And if a text is read
as tokens, and no comment sign begins at a character outside of the literals among them, the text is
left as it is. -/
theorem stripComments_stable (text : String) :
    (∀ cs, stripComments text.toList = .ok cs → CommentFree cs ∧ stripComments cs = .ok cs) ∧
    ∀ ts, Token.lex text = .ok ts →
      (∃ ps last, text.toList = laidOut ps last ∧ IsMunch ps last ∧ ps.map Placed.token = ts) ∧
      ∀ ps last, text.toList = laidOut ps last → IsMunch ps last →
        (∀ i, BeginsComment (text.toList.drop i) → StandsInLiteral ps i) →
        stripComments text.toList = .ok text.toList := by
  refine ⟨fun cs h => ?_, fun ts h => ⟨Token.lex_eq_ok_iff_isMunch.1 h, ?_⟩⟩
  · have hfree := commentFree_of_stripComments h
    exact ⟨hfree, stripComments_eq_self_iff.2 hfree⟩
  · intro ps last htext hps hplaces
    rw [htext] at hplaces ⊢
    exact stripComments_eq_self_iff.2 (commentFree_laidOut hps hplaces)

/-- Slashes around a comment, a literal that ends with its line and one that is open; and comment
signs in closed literals, one of them after an escaped quote. -/
theorem stripComments_stable_slashes :
    ∃ commented left quoted : String,
      commented = "a /**// b 'c //d\n/*e*/\"f" ∧ left = "a  / b 'c //d\n \"f" ∧
      quoted = "x/\"//\" '\\'/*'" ∧
      stripComments commented.toList = .ok left.toList ∧ CommentFree left.toList ∧
      stripComments left.toList = .ok left.toList ∧
      Token.lex quoted = .ok [.name "x", .mark "/", ⟨.literal, "\"//\"", false⟩,
        ⟨.literal, "'\\'/*'", true⟩] ∧
      stripComments quoted.toList = .ok quoted.toList := by
  refine ⟨_, _, _, rfl, rfl, rfl, ?_⟩
  have hstrip : stripComments "a /**// b 'c //d\n/*e*/\"f".toList =
      .ok "a  / b 'c //d\n \"f".toList := by decide +kernel
  obtain ⟨hfree, hagain⟩ := (stripComments_stable _).1 _ hstrip
  refine ⟨hstrip, hfree, hagain, ?_⟩
  obtain ⟨ps, hps⟩ : ∃ ps : List Placed, ps = [⟨[], .name "x"⟩, ⟨[], .mark "/"⟩,
    ⟨[], ⟨.literal, "\"//\"", false⟩⟩, ⟨[' '], ⟨.literal, "'\\'/*'", true⟩⟩] := ⟨_, rfl⟩
  have htext : "x/\"//\" '\\'/*'".toList = laidOut ps [] := by
    subst hps
    rfl
  have hmunch : IsMunch ps [] := by
    subst hps
    refine Token.isMunch_iff.2 ⟨?_, by cbv⟩
    constructor <;> simp <;> decide
  have hplaces : ∀ i, BeginsComment ("x/\"//\" '\\'/*'".toList.drop i) → StandsInLiteral ps i := by
    have hall : ∀ i < 13, BeginsComment ("x/\"//\" '\\'/*'".toList.drop i) →
        StandsInLiteral ps i := by
      subst hps
      decide
    intro i hi
    by_cases hlt : i < 13
    · exact hall i hlt hi
    · rw [List.drop_eq_nil_of_le (by simpa using hlt)] at hi
      exact absurd hi (by decide)
  have hlex := Token.lex_eq_ok_iff_isMunch.2 ⟨ps, [], htext, hmunch, rfl⟩
  have hsame := ((stripComments_stable _).2 _ hlex).2 ps [] htext hmunch hplaces
  rw [hps] at hlex
  exact ⟨hlex, hsame⟩

end Source

end VariadicMacros
