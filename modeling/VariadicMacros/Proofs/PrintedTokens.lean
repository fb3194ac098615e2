/-
**When printed tokens are read back.**

A token list is printed with a space where a token asks for one, and nothing else keeps its tokens
apart.  Whether the printed text is read as the same tokens is a local matter: every token has to
be read back when it is printed alone, and every two neighbours when the two of them are.  Three
tokens matter in one case only, that of three points in a row, of which no two make a token and
all three do.

Main definitions:

* `VariadicMacros.Token.ReadsBack` — a token list is read back from its printed text;
* `VariadicMacros.Token.BeginsEllipsis` — two points and a token that starts with a third one.

Main results:

* `VariadicMacros.Token.readsBack_iff` — **a list is read back when its neighbours are**;
* `VariadicMacros.Token.ReadsBack.lex_spell` — a list that is read back is read with its spaces.
-/

import VariadicMacros.Proofs.Legible
import VariadicMacros.Proofs.Words

set_option autoImplicit false

namespace VariadicMacros

namespace Lexeme

/-- A punctuator of three characters starts with one of two characters, unless it is the
ellipsis. -/
theorem eq_ellipsis_or_mem {a b : Char} {cs : List Char} (h : a :: b :: cs ∈ punctuators)
    (hcs : cs ≠ []) : (a = '.' ∧ b = '.' ∧ cs = ['.']) ∨ [a, b] ∈ punctuators := by
  have hall : ∀ p ∈ punctuators, 2 < p.length →
      p = ['.', '.', '.'] ∨ p.take 2 ∈ punctuators := by decide
  have hlength : 2 < (a :: b :: cs).length := by
    simpa [Nat.pos_iff_ne_zero] using hcs
  rcases hall _ h hlength with heq | hmem
  · simp only [List.cons.injEq] at heq
    exact .inl heq
  · exact .inr (by simpa using hmem)

/-- Where a lexeme ends is seen from the next token, except at the second of three points. -/
theorem endsBefore_append_iff {k : Kind} {cs next : List Char} (h : isLexeme k cs = true)
    (hnext : next ≠ []) (more : List Char) :
    endsBefore k cs (next ++ more) = true ↔
      endsBefore k cs next = true ∧ (cs = ['.'] → next = ['.'] → more.head? ≠ some '.') := by
  obtain ⟨b, next, rfl⟩ := List.exists_cons_of_ne_nil hnext
  -- A name, a number or a literal ends where the first character after it says so.
  have hword : k ≠ .punctuator →
      (endsBefore k cs (b :: next ++ more) = true ↔ endsBefore k cs (b :: next) = true ∧
        (cs = ['.'] → b :: next = ['.'] → more.head? ≠ some '.')) := by
    intro hk
    have hpoint : cs ≠ ['.'] := by
      rintro rfl
      cases k <;> first | exact hk rfl | cases h
    have hsame : endsBefore k cs (b :: next ++ more) = endsBefore k cs (b :: next) := by
      cases k <;> first | exact absurd rfl hk | rfl
    rw [hsame]
    exact ⟨fun hends => ⟨hends, fun heq => absurd heq hpoint⟩, And.left⟩
  cases k with
  | identifier => exact hword (by decide)
  | number => exact hword (by decide)
  | literal => exact hword (by decide)
  | punctuator =>
      rw [endsBefore_punctuator_iff, endsBefore_punctuator_iff]
      constructor
      · rintro ⟨hdigit, hlongest⟩
        refine ⟨⟨hdigit, fun p hp hlength hprefix => ?_⟩, ?_⟩
        · refine hlongest p hp hlength (List.IsPrefix.trans hprefix ?_)
          exact ⟨more, by simp⟩
        · rintro rfl heq hhead
          obtain ⟨rfl, rfl⟩ := List.cons.inj heq
          obtain ⟨after, rfl⟩ := List.head?_eq_some_iff.1 hhead
          exact hlongest ['.', '.', '.'] (by decide) (by decide) ⟨after, rfl⟩
      · rintro ⟨⟨hdigit, hlongest⟩, hpoints⟩
        refine ⟨hdigit, fun p hp hlength hprefix => ?_⟩
        by_cases hle : p.length ≤ (cs ++ b :: next).length
        · -- A punctuator that ends before the next token but one is seen from the next token.
          rw [← List.append_assoc] at hprefix
          exact hlongest p hp hlength
            (List.prefix_of_prefix_length_le hprefix (List.prefix_append _ _) hle)
        · obtain ⟨a, cs, rfl⟩ := List.exists_cons_of_ne_nil (ne_nil_of_isLexeme h)
          have hthree : ∀ p ∈ punctuators, p.length ≤ 3 := by decide
          have hp3 := hthree p hp
          simp only [List.length_append, List.length_cons, Nat.not_le] at hle
          obtain rfl : cs = [] := List.length_eq_zero_iff.1 (by omega)
          obtain rfl : next = [] := List.length_eq_zero_iff.1 (by omega)
          rcases p with _ | ⟨x, _ | ⟨y, rest⟩⟩
          · simp at hle
          · simp at hle
          · simp only [List.cons_append, List.nil_append, List.cons_prefix_cons] at hprefix
            obtain ⟨rfl, rfl, hrest⟩ := hprefix
            have hne : rest ≠ [] := by
              rintro rfl
              simp at hle
            rcases eq_ellipsis_or_mem hp hne with ⟨rfl, rfl, rfl⟩ | hmem
            · obtain ⟨after, rfl⟩ := hrest
              exact hpoints rfl rfl rfl
            · exact hlongest [x, y] hmem (by simp) (List.prefix_refl _)

end Lexeme

namespace Token

open Lexeme (isLexeme endsBefore)

/-! ### Reading printed tokens -/

/-- A token list is read back, spaces aside, from its printed text. -/
def ReadsBack (ts : List Token) : Prop :=
  ∃ us, lex (spell ts) = .ok us ∧ us.map word = ts.map word

theorem map_word_respace (b : Bool) (ts : List Token) :
    (respace b ts).map word = ts.map word := by
  cases ts <;> rfl

/-- Lists of tokens that agree in one respect agree in every other that depends on it. -/
theorem map_eq_map_of_map_eq_map {α β : Type} {f : Token → α} {g : Token → β}
    {ts us : List Token} (h : ts.map f = us.map f)
    (hfg : ∀ t ∈ ts, ∀ u ∈ us, f t = f u → g t = g u) : ts.map g = us.map g := by
  induction ts generalizing us with
  | nil => rw [List.map_eq_nil_iff.1 h.symm]
  | cons t ts ih =>
      obtain ⟨u, us, rfl, hu, hus⟩ := List.map_eq_cons_iff.1 h.symm
      have hrest : ∀ t' ∈ ts, ∀ u' ∈ us, f t' = f u' → g t' = g u' := fun t' ht' u' hu' =>
        hfg t' (List.mem_cons_of_mem _ ht') u' (List.mem_cons_of_mem _ hu')
      rw [List.map_cons, List.map_cons, ih hus.symm hrest,
        hfg t List.mem_cons_self u List.mem_cons_self hu.symm]

theorem exists_mem_of_mem_respace {b : Bool} {t : Token} {ts : List Token}
    (h : t ∈ respace b ts) : ∃ u ∈ ts, u.word = t.word := by
  have hmem := List.mem_map_of_mem h (f := word)
  rw [map_word_respace] at hmem
  exact List.mem_map.1 hmem

/-- Tokens that are read back end where the next ones begin. -/
theorem endsEach_of_reads {ts us : List Token} {spaced : Bool}
    (h : Reads spaced (written ts) us) (hwords : us.map word = ts.map word) :
    endsEach ts = true := by
  induction ts generalizing us spaced with
  | nil => rfl
  | cons t ts ih =>
      obtain ⟨u, us, rfl, hu, hus⟩ := List.map_eq_cons_iff.1 hwords
      have hkind : u.kind = t.kind := congrArg Word.kind hu
      have htext : u.text = t.text := congrArg Word.text hu
      have hlexeme : isLexeme t.kind t.text.toList = true := by
        rw [← hkind, ← htext]
        exact h.isLexeme_of_mem u List.mem_cons_self
      rw [written_cons, reads_chars_append] at h
      obtain ⟨hends, hrest⟩ := h.of_lexeme hlexeme (congrArg String.toList htext)
      rw [hkind] at hends
      rw [endsEach, hlexeme, hends, ih hrest hus]
      rfl

theorem readsBack_iff_endsEach {ts : List Token} : ReadsBack ts ↔ endsEach ts = true := by
  constructor
  · rintro ⟨us, hlex, hwords⟩
    rw [lex_eq_ok_iff, toList_spell] at hlex
    rw [← endsEach_respace false]
    exact endsEach_of_reads hlex (by rw [hwords, map_word_respace])
  · intro h
    refine ⟨respace false ts, ?_, map_word_respace false ts⟩
    rw [lex_eq_ok_iff, toList_spell]
    exact reads_of_endsEach ((endsEach_respace false ts).trans h)

theorem readsBack_singleton_iff {t : Token} :
    ReadsBack [t] ↔ isLexeme t.kind t.text.toList = true := by
  simp [readsBack_iff_endsEach, endsEach, Lexeme.endsBefore_nil]

/-- **A list that is read back is read with its spaces**, but for one before its first token. -/
theorem ReadsBack.lex_spell {ts : List Token} (h : ReadsBack ts) :
    lex (spell ts) = .ok (respace false ts) := by
  rw [lex_eq_ok_iff, toList_spell]
  exact reads_of_endsEach ((endsEach_respace false ts).trans (readsBack_iff_endsEach.1 h))

/-! ### Neighbours -/

/-- Two points and a token that starts with a point, with no space between the three. -/
def BeginsEllipsis (t u v : Token) : Prop :=
  t.isMark "." = true ∧ u.isMark "." = true ∧ u.spaced = false ∧ v.spaced = false ∧
    v.text.toList.head? = some '.'

/-- A lexeme that is a point is the punctuator. -/
theorem isMark_point_iff {t : Token} (h : isLexeme t.kind t.text.toList = true) :
    t.isMark "." = true ↔ t.text.toList = ['.'] := by
  rw [isMark_iff]
  constructor
  · rintro ⟨-, htext⟩
    rw [htext]
    rfl
  · intro htext
    rw [htext] at h
    refine ⟨?_, String.toList_inj.1 htext⟩
    cases hkind : t.kind with
    | punctuator => rfl
    | _ =>
        rw [hkind] at h
        cases h

/-- A written list starts with a point when its first token does and has no space before it. -/
theorem head?_written_eq_point_iff {ts : List Token} (h : endsEach ts = true) :
    (written ts).head? = some '.' ↔
      ∃ v ∈ ts.head?, v.spaced = false ∧ v.text.toList.head? = some '.' := by
  cases ts with
  | nil => simp
  | cons v ts =>
      rw [endsEach, Bool.and_eq_true, Bool.and_eq_true] at h
      obtain ⟨c, cs, hv⟩ := List.exists_cons_of_ne_nil (Lexeme.ne_nil_of_isLexeme h.1.1)
      cases hspaced : v.spaced <;> simp [chars, hspaced, hv]

/-- Where a token ends is seen from the next token and, for a point, from the one after it. -/
theorem endsBefore_written_cons_iff {t u : Token} {us : List Token}
    (ht : isLexeme t.kind t.text.toList = true) (hu : endsEach (u :: us) = true) :
    endsBefore t.kind t.text.toList (written (u :: us)) = true ↔
      endsBefore t.kind t.text.toList (written [u]) = true ∧
        ∀ v ∈ us.head?, ¬ BeginsEllipsis t u v := by
  rw [endsEach, Bool.and_eq_true, Bool.and_eq_true] at hu
  obtain ⟨⟨hlexeme, -⟩, hus⟩ := hu
  cases hspaced : u.spaced with
  | true =>
      have hends : ∀ more, endsBefore t.kind t.text.toList (' ' :: more) = true := fun more =>
        Lexeme.endsBefore_append_blank (Lexeme.endsBefore_nil _ _) (by decide) more
      have hnone : ∀ v ∈ us.head?, ¬ BeginsEllipsis t u v := by
        rintro v - ⟨-, -, hu, -⟩
        rw [hspaced] at hu
        cases hu
      simp only [written_cons, written_nil, chars, hspaced, if_true, List.cons_append, hends,
        true_and]
      exact ⟨fun _ => hnone, fun _ => trivial⟩
  | false =>
      have hwritten : ∀ vs, written (u :: vs) = u.text.toList ++ written vs := by
        intro vs
        rw [written_cons, chars, hspaced, if_neg Bool.false_ne_true]
      rw [hwritten, hwritten, written_nil, List.append_nil,
        Lexeme.endsBefore_append_iff ht (Lexeme.ne_nil_of_isLexeme hlexeme),
        ← isMark_point_iff ht, ← isMark_point_iff hlexeme, ne_eq, head?_written_eq_point_iff hus]
      refine and_congr_right fun _ => ?_
      constructor
      · rintro h v hv ⟨ht, hu, -, hv', hpoint⟩
        exact h ht hu ⟨v, hv, hv', hpoint⟩
      · rintro h ht hu ⟨v, hv, hv', hpoint⟩
        exact h v hv ⟨ht, hu, hspaced, hv', hpoint⟩

theorem endsEach_cons_cons_iff {t u : Token} {us : List Token} :
    endsEach (t :: u :: us) = true ↔ endsEach [t, u] = true ∧
      (∀ v ∈ us.head?, ¬ BeginsEllipsis t u v) ∧ endsEach (u :: us) = true := by
  have hpair : endsEach [t, u] = true ↔ isLexeme t.kind t.text.toList = true ∧
      endsBefore t.kind t.text.toList (written [u]) = true ∧
        isLexeme u.kind u.text.toList = true := by
    simp [endsEach, Lexeme.endsBefore_nil, and_assoc]
  rw [hpair, endsEach, Bool.and_eq_true, Bool.and_eq_true]
  constructor
  · rintro ⟨⟨ht, hends⟩, hu⟩
    obtain ⟨hnext, hafter⟩ := (endsBefore_written_cons_iff ht hu).1 hends
    rw [endsEach, Bool.and_eq_true, Bool.and_eq_true] at hu
    exact ⟨⟨ht, hnext, hu.1.1⟩, hafter, by simp [endsEach, hu]⟩
  · rintro ⟨⟨ht, hnext, -⟩, hafter, hu⟩
    exact ⟨⟨ht, (endsBefore_written_cons_iff ht hu).2 ⟨hnext, hafter⟩⟩, hu⟩

/-- **A token list is read back exactly when its tokens and its neighbours are**, and no three
tokens begin with an ellipsis. -/
theorem readsBack_iff {ts : List Token} :
    ReadsBack ts ↔ (∀ t ∈ ts, ReadsBack [t]) ∧ (∀ t u, [t, u] <:+: ts → ReadsBack [t, u]) ∧
      ∀ t u v, [t, u, v] <:+: ts → ¬ BeginsEllipsis t u v := by
  simp only [readsBack_iff_endsEach]
  induction ts with
  | nil => simp [endsEach]
  | cons t ts ih =>
      cases ts with
      | nil =>
          have hnone : ∀ u v (us : List Token), ¬ u :: v :: us <:+: [t] := by
            intro u v us h
            have hle := h.length_le
            simp at hle
          simp [hnone]
      | cons u us =>
          rw [endsEach_cons_cons_iff, ih]
          have htwo : ∀ a b, [a, b] <:+: t :: u :: us ↔ (a = t ∧ b = u) ∨ [a, b] <:+: u :: us := by
            intro a b
            rw [List.infix_cons_iff]
            simp [List.cons_prefix_cons]
          have hthree : ∀ a b c, [a, b, c] <:+: t :: u :: us ↔
              (a = t ∧ b = u ∧ c ∈ us.head?) ∨ [a, b, c] <:+: u :: us := by
            intro a b c
            rw [List.infix_cons_iff]
            cases us <;> simp [List.cons_prefix_cons, eq_comm]
          constructor
          · rintro ⟨hpair, hafter, halone, hpairs, hthrees⟩
            refine ⟨?_, fun a b hab => ?_, fun a b c habc => ?_⟩
            · rw [List.forall_mem_cons]
              refine ⟨?_, halone⟩
              rw [endsEach, Bool.and_eq_true, Bool.and_eq_true] at hpair
              simp [endsEach, hpair.1.1, Lexeme.endsBefore_nil]
            · rcases (htwo a b).1 hab with ⟨rfl, rfl⟩ | hab
              · exact hpair
              · exact hpairs a b hab
            · rcases (hthree a b c).1 habc with ⟨rfl, rfl, hc⟩ | habc
              · exact hafter c hc
              · exact hthrees a b c habc
          · rintro ⟨halone, hpairs, hthrees⟩
            refine ⟨hpairs t u ((htwo t u).2 (.inl ⟨rfl, rfl⟩)), fun v hv => ?_, ?_, ?_, ?_⟩
            · exact hthrees t u v ((hthree t u v).2 (.inl ⟨rfl, rfl, hv⟩))
            · exact fun a ha => halone a (List.mem_cons_of_mem t ha)
            · exact fun a b hab => hpairs a b ((htwo a b).2 (.inr hab))
            · exact fun a b c habc => hthrees a b c ((hthree a b c).2 (.inr habc))

end Token

end VariadicMacros
