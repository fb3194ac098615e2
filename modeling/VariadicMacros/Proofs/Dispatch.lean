/-
**Pasting a number to a name: how a header dispatches.**

Four families of a header are tables whose entries are numbered, and an entry is found by pasting
the number to the beginning of its name.  The pasting macro expands both of its arguments before
they meet `##`, so that the number may be computed; and the name that comes of it is called with
the parentheses that follow, of which nothing was produced by the pasting macro, so that the entry
may use the pasting macro again.

Main definitions:

* `VariadicMacros.Header.concat`, `VariadicMacros.Header.concatImpl` — the pasting macros.

Main results:

* `VariadicMacros.Header.exists_rewrites_dispatch` — **a dispatch is rewritten to the pasted
  name**.
-/

import VariadicMacros.Proofs.Calls

set_option autoImplicit false

namespace VariadicMacros

open Painted (Shows)
open Token (name number mark)

namespace Header

variable {o : Options} {table : MacroTable}

/-! ### Pasting -/

/-- The macro that pastes two expanded arguments. -/
def concat (o : Options) : Definition :=
  function (o.name "CONCAT") ["a", "b"] false
    (looseCall (o.name "CONCAT_IMPL") [[name "a"], [name "b"]])

/-- The macro that pastes its arguments as they are. -/
def concatImpl (o : Options) : Definition :=
  function (o.name "CONCAT_IMPL") ["a", "b"] false
    [name "a", (mark "##").afterSpace, (name "b").afterSpace]

theorem concat_mem (o : Options) : concat o ∈ macros o :=
  mem_macros .helpers (by simp [Family.blocks, helpers, fixed, concat])

theorem concatImpl_mem (o : Options) : concatImpl o ∈ macros o :=
  mem_macros .helpers (by simp [Family.blocks, helpers, fixed, concatImpl])

/-- What the pasting macro makes of two tokens that join into an identifier. -/
theorem replacement_concatImpl {x y : Painted} {joined : String}
    (hjoined : x.text ++ y.text = joined)
    (hidentifier : Text.isIdentifier joined.toList = true)
    (expandArgument : Substitution.ExpandArgument) (names : HideSet) (steps : Nat) :
    (concatImpl o).replacement [[x], [y]] expandArgument names steps =
      .ok ([⟨name joined, (x.hidden.inter y.hidden).union names⟩], steps) := by
  have ha : (concatImpl o).parameterIndex? (name "a") = some 0 := by
    simp [Definition.parameterIndex?, concatImpl, function, name, List.idxOf?_cons]
  have hb : (concatImpl o).parameterIndex? (name "b").afterSpace = some 1 := by
    simp [Definition.parameterIndex?, concatImpl, function, name, Token.afterSpace,
      List.idxOf?_cons]
  have hjoin : Substitution.join? { x with spaced := false } y =
      some ⟨name joined, x.hidden.inter y.hidden⟩ := by
    simp only [Substitution.join?, hjoined, Token.ofText?_identifier hidentifier]
    rfl
  have hfill : Substitution.fill (concatImpl o) [[x], [y]] expandArgument (concatImpl o).body
      ⟨[], [], steps⟩ = .ok ⟨[⟨name joined, x.hidden.inter y.hidden⟩], [], steps⟩ := by
    have hbody : (concatImpl o).body =
        [name "a", (mark "##").afterSpace, (name "b").afterSpace] := rfl
    have hname : ∀ text : String, (name "a").isMark text = false := fun _ => rfl
    have hhash : (mark "##").afterSpace.isMark "#" = false := by decide
    have hpaste : (mark "##").afterSpace.isMark "##" = true := by decide
    -- The first operand is emitted as it is, and then the operator takes the second one to it.
    rw [hbody, Substitution.fill.eq_def]
    simp only [hname, hpaste, ha, Bool.false_and, Bool.false_eq_true, if_false, if_true,
      List.getD_cons_zero, List.isEmpty_cons]
    rw [Substitution.fill.eq_def]
    simp only [hhash, hpaste, hb, Bool.false_and, Bool.false_eq_true, if_false, if_true,
      List.getD_cons_zero, List.getD_cons_succ, Substitution.Walk.emit, Painted.respace,
      List.reverse_singleton, List.append_nil, Substitution.paste]
    have hspaced : (name "a").spaced = false := rfl
    rw [hspaced, hjoin]
    simp only [List.reverse_nil, List.nil_append]
    rw [Substitution.fill]
  rw [Definition.replacement, hfill]
  rfl

/-- Arguments of one word each are single tokens. -/
theorem exists_operands {hidden : List String} {bound : List (List Painted)} {v w : Word}
    (h : List.Forall₂ (Shows hidden) bound [[v], [w]]) :
    ∃ x y : Painted, bound = [[x], [y]] ∧ x.word = v ∧ y.word = w ∧ x.hidden ⊆ hidden := by
  cases h with
  | cons has hrest =>
      cases hrest with
      | cons hbs hrest =>
          cases hrest
          obtain ⟨x, rfl, hx, hhidden⟩ := has.exists_singleton
          obtain ⟨y, rfl, hy, -⟩ := hbs.exists_singleton
          exact ⟨x, y, rfl, hx, hy, hhidden⟩

/-- A name and a number that join into an identifier are pasted. -/
theorem exists_rewrites_concatImpl (depth : Nat) (htable : Installed o table) {p : Painted}
    (hp : p.word = .name (o.name "CONCAT_IMPL")) (hfree : o.name "CONCAT_IMPL" ∉ p.hidden)
    {a b : String} (hab : Text.isIdentifier (a ++ b).toList = true) {hidden : List String}
    {ps : List Painted} (hps : Shows hidden ps (Word.parens [[.name a], [.number b]])) :
    ∃ q : Painted, q.word = .name (a ++ b) ∧ q.hidden ⊆ o.name "CONCAT_IMPL" :: hidden ∧
      Scan.Rewrites table depth 1 (p :: ps) [] [q] := by
  have hargument : ∀ ws ∈ [[Word.name a], [Word.number b]], Word.IsArgument ws := by
    simp [Word.isArgument_name, Word.isArgument_number]
  obtain ⟨actuals, names, hactuals, hnames, hadvance⟩ :=
    Scan.exists_advance_call (htable _ (concatImpl_mem o)) rfl hp hfree (by simp) hargument hps
  obtain ⟨bound, hbind, hbound⟩ :=
    Definition.exists_bind (d := concatImpl o) rfl hactuals rfl
  obtain ⟨x, y, rfl, hx, hy, hxhidden⟩ := exists_operands hbound
  have hjoined : x.text ++ y.text = a ++ b := by
    rw [show x.text = a from congrArg Word.text hx, show y.text = b from congrArg Word.text hy]
  refine ⟨⟨{ name (a ++ b) with spaced := p.spaced }, (x.hidden.inter y.hidden).union names⟩,
    rfl, ?_, ?_⟩
  · -- Of what the operands hide only the names that both hide are left.
    intro n hn
    rcases HideSet.mem_union.1 hn with hn | hn
    · exact List.mem_cons_of_mem _ (hxhidden (HideSet.mem_inter.1 hn).1)
    · exact hnames hn
  · intro after limits supply level steps out _ hsteps hsupply
    obtain ⟨supply, rfl⟩ := Nat.exists_eq_add_of_le' hsupply
    refine ⟨supply, 1, Nat.le_refl _, Nat.le_refl _, ?_⟩
    rw [Scan.run.eq_def, hadvance]
    simp only [if_neg (show ¬ limits.steps ≤ steps by omega), hbind,
      replacement_concatImpl hjoined hab]
    rfl

/-! ### Dispatching -/

/-- The words of a call of the pasting macro after its arguments are expanded. -/
theorem filled_concat (a b : List Word) :
    (concat o).filled [a, b] = Word.call (o.name "CONCAT_IMPL") [a, b] := by
  simp (disch := decide) [concat]
  rfl

/-- Unless the guard begins with it, the beginning of a numbered name is not called. -/
theorem isCallable_stem (ho : o.check = .ok ()) {time : Timestamp}
    (htable : table? o time = some table) {stem : String} (hstem : stem ∈ dispatchStems)
    (hguard : ¬ (o.name stem).toList <+: o.guard.toList) :
    Scan.IsCallable table (o.name stem) :=
  .of_none (getElem?_stem ho htable hstem hguard)

/-- **A dispatch is rewritten to the pasted name.** -/
theorem exists_rewrites_dispatch (depth : Nat) (ho : o.check = .ok ()) (htable : Installed o table)
    {stem : String} (hstem : stem ∈ dispatchStems)
    (hcallable : Scan.IsCallable table (o.name stem)) (i : Nat) {endings : List String}
    (hconcat : "CONCAT" ∉ endings) (himpl : "CONCAT_IMPL" ∉ endings) {ps : List Painted}
    (hps : Shows (endings.map o.name) ps
      (Word.call (o.name "CONCAT") [[.name (o.name stem)], [.number (toString i)]])) :
    ∃ q : Painted, q.word = .name (o.name (stem ++ toString i)) ∧
      q.hidden ⊆ ("CONCAT_IMPL" :: "CONCAT" :: endings).map o.name ∧
      Scan.Rewrites table (depth + 1) 2 ps [] [q] := by
  have hidentifier : Text.isIdentifier (o.name stem ++ toString i).toList = true := by
    have hall : ∀ s ∈ dispatchStems, Text.isIdentifier s.toList = true := by decide
    exact Text.isIdentifier_append_toString (Options.isIdentifier_name ho _ (hall stem hstem)) i
  have hname := o.name_append_toString stem i
  have hargument : ∀ ws ∈ [[Word.name (o.name stem)], [Word.number (toString i)]],
      Word.IsArgument ws := by
    simp [Word.isArgument_name, Word.isArgument_number]
  have hslots : Scan.Prepares table depth (endings.map o.name) (endings.map o.name) 0
      ((concat o).slots [[.name (o.name stem)], [.number (toString i)]])
      [[.name (o.name stem)], [.number (toString i)]] :=
    .cons (.of_passes (.of_isCallable hcallable) (List.Subset.refl _))
      (.cons (.of_ignores (.number _) (List.Subset.refl _)) .nil)
  obtain ⟨qs, hqs, hcall⟩ := exists_rewrites_macro depth htable (concat_mem o) rfl rfl rfl hconcat
    (List.Subset.refl _) rfl hargument hps hslots
  rw [filled_concat] at hqs
  obtain ⟨p, qs, rfl, hp, hhidden, hqs⟩ := hqs.exists_cons
  have hfree : o.name "CONCAT_IMPL" ∉ p.hidden := by
    intro hmem
    have hnot : "CONCAT_IMPL" ∉ "CONCAT" :: endings := by simp [himpl]
    exact name_notMem_map hnot (hhidden hmem)
  obtain ⟨q, hq, hqhidden, hpaste⟩ :=
    exists_rewrites_concatImpl (depth + 1) htable hp hfree hidentifier hqs
  refine ⟨q, by rw [hq, hname], hqhidden, ?_⟩
  exact hcall.trans hpaste

/-- What follows a dispatch follows the pasted name. -/
theorem exists_rewrites_pasted (depth : Nat) (ho : o.check = .ok ()) (htable : Installed o table)
    {stem : String} (hstem : stem ∈ dispatchStems)
    (hcallable : Scan.IsCallable table (o.name stem)) {i : Nat} {endings : List String}
    (hconcat : "CONCAT" ∉ endings) (himpl : "CONCAT_IMPL" ∉ endings) {ps : List Painted}
    {ws : List Word} (hps : Shows (endings.map o.name) ps
      (Word.call (o.name "CONCAT") [[.name (o.name stem)], [.number (toString i)]] ++ ws)) :
    ∃ qs, Shows (("CONCAT_IMPL" :: "CONCAT" :: endings).map o.name) qs
        (.name (o.name (stem ++ toString i)) :: ws) ∧
      Scan.Rewrites table (depth + 1) 2 ps [] qs := by
  obtain ⟨as, bs, rfl, has, hbs⟩ := hps.exists_append
  obtain ⟨q, hq, hhidden, hdispatch⟩ := exists_rewrites_dispatch depth ho htable hstem
    hcallable i hconcat himpl has
  have hshows := (hbs.mono (List.map_subset _ (by simp))).cons hhidden
  rw [hq] at hshows
  exact ⟨q :: bs, hshows, hdispatch.append_right bs⟩

/-- A dispatch that is followed by arguments is rewritten to the filled-in body of the entry. -/
theorem exists_rewrites_entry (depth : Nat) (ho : o.check = .ok ()) (htable : Installed o table)
    {stem : String} (hstem : stem ∈ dispatchStems)
    (hcallable : Scan.IsCallable table (o.name stem)) {i : Nat} {d : Definition}
    (hd : d ∈ macros o) (hfunction : d.isFunctionLike = true) (hquiet : d.isQuiet = true)
    (hname : d.name = o.name (stem ++ toString i)) {endings : List String}
    (hconcat : "CONCAT" ∉ endings) (himpl : "CONCAT_IMPL" ∉ endings)
    (hfree : stem ++ toString i ∉ endings) {arguments : List (List Word)}
    (htakes : d.takes arguments = true) (hargument : ∀ a ∈ arguments, Word.IsArgument a)
    {ps : List Painted} (hps : Shows (endings.map o.name) ps
      (Word.call (o.name "CONCAT") [[.name (o.name stem)], [.number (toString i)]] ++
        Word.parens arguments))
    {results : List (List Word)} (hslots : Scan.Prepares table depth
      (endings.map o.name) (endings.map o.name) 0 (d.slots arguments) results) :
    ∃ qs, Shows (((stem ++ toString i) :: endings).map o.name) qs (d.filled results) ∧
      Scan.Rewrites table (depth + 1) 3 ps [] qs := by
  obtain ⟨as, bs, rfl, has, hbs⟩ := hps.exists_append
  obtain ⟨q, hq, hhidden, hdispatch⟩ :=
    exists_rewrites_dispatch depth ho htable hstem hcallable i hconcat himpl has
  rw [← hname] at hq
  -- The pasted name hides the macros that pasted it, and its entry is none of them.
  have hfree' : d.name ∉ q.hidden := by
    have hplain : ∀ s ∈ plainSuffixes, stem ++ toString i ≠ s := by
      rintro s hs rfl
      exact numbered_notMem_plainSuffixes hstem i hs
    have hnot : stem ++ toString i ∉ "CONCAT_IMPL" :: "CONCAT" :: endings := by
      rw [List.mem_cons, List.mem_cons, not_or, not_or]
      exact ⟨hplain _ (by decide), hplain _ (by decide), hfree⟩
    rw [hname]
    exact fun hmem => name_notMem_map hnot (hhidden hmem)
  obtain ⟨qs, hqs, hcall⟩ := Scan.exists_rewrites_call depth (htable d hd) hfunction hquiet hq
    hfree' htakes hargument (List.Subset.refl _) hbs hslots
  rw [hname] at hqs
  exact ⟨qs, hqs, (hdispatch.append_right bs).trans hcall⟩

end Header

end VariadicMacros
