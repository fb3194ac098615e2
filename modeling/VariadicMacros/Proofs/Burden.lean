/-
**What the hide sets of a text leave to be expanded.**

The tokens of a call hide what all of its tokens hide and the name of the macro besides, and so
does everything that the call is replaced by.  This makes every call of a scan lose weight: read
from its start, a text shares with every one of its tokens the names that all tokens up to there
hide, and these become fewer and fewer.  A call reaches from the start of the text to some last
token; what replaces it shares more names than were shared there, and what follows it shares at
least what it shared before.  So there is a number of shared names at which the text has lost a
token, while it has gained none at any smaller number.  The argument of a call has lost the last
token of the call in the same way.

Commas do not count.  The commas between the arguments of an ellipsis are written anew, and hide
nothing.

Main definitions:

* `VariadicMacros.Painted.shared` — the names that all tokens of a text hide;
* `VariadicMacros.Painted.burden` — how many tokens share at most so many names;
* `VariadicMacros.Painted.Lighter` — a text has lost a token, as said above.

Main results:

* `VariadicMacros.Painted.wellFounded_lighter` — **texts do not get lighter forever**;
* `VariadicMacros.Scan.Takes.lighter_replaced`, `VariadicMacros.Scan.Takes.lighter_argument` —
  **a call leaves a lighter text, and so are its arguments**.
-/

import Mathlib.Data.DFinsupp.WellFounded
import VariadicMacros.Expansion
import VariadicMacros.Proofs.ReachableTables

set_option autoImplicit false

namespace VariadicMacros

namespace Painted

/-! ### Names that all tokens hide -/

/-- The tokens that count: all but the commas. -/
def counted (ps : List Painted) : List Painted := ps.filter fun p => !p.isMark ","

/-- The names that all counted tokens of a text hide. -/
def shared (names : List String) (ps : List Painted) : List String :=
  names.filter fun n => (counted ps).all fun p => p.hidden.contains n

theorem counted_append (ps qs : List Painted) : counted (ps ++ qs) = counted ps ++ counted qs :=
  List.filter_append ..

theorem mem_shared {names : List String} {ps : List Painted} {n : String} :
    n ∈ shared names ps ↔ n ∈ names ∧ ∀ p ∈ counted ps, n ∈ p.hidden := by
  simp [shared]

theorem shared_append (names : List String) (ps qs : List Painted) :
    shared names (ps ++ qs) = shared (shared names ps) qs := by
  simp only [shared, counted_append, List.all_append, List.filter_filter]
  exact List.filter_congr fun n _ => Bool.and_comm _ _

theorem shared_sublist (names : List String) (ps : List Painted) :
    (shared names ps).Sublist names := List.filter_sublist

theorem shared_sublist_shared {names names' : List String} (h : names.Sublist names')
    (ps : List Painted) : (shared names ps).Sublist (shared names' ps) := h.filter _

/-- Names that all tokens of a text hide are shared by it. -/
theorem sublist_shared {names kept : List String} (hkept : kept.Sublist names)
    {ps : List Painted} (h : ∀ n ∈ kept, ∀ p ∈ counted ps, n ∈ p.hidden) :
    kept.Sublist (shared names ps) := by
  have hall : kept.filter (fun n => (counted ps).all fun p => p.hidden.contains n) = kept :=
    List.filter_eq_self.2 fun n hn => by simpa using h n hn
  rw [← hall]
  exact hkept.filter _

/-! ### Burdens -/

/-- How many counted tokens of a text share at most `level` of the names with all tokens before
them. -/
def burden (names : List String) (level : Nat) : List Painted → Nat
  | [] => 0
  | p :: ps =>
    (if !p.isMark "," && (shared names [p]).length ≤ level then 1 else 0) +
      burden (shared names [p]) level ps

theorem burden_append (names : List String) (level : Nat) (ps qs : List Painted) :
    burden names level (ps ++ qs) =
      burden names level ps + burden (shared names ps) level qs := by
  induction ps generalizing names with
  | nil => simp [burden, shared, counted]
  | cons p ps ih =>
      have hshared : shared names (p :: ps) = shared (shared names [p]) ps :=
        shared_append names [p] ps
      rw [List.cons_append, burden, burden, ih, hshared, Nat.add_assoc]

/-- The fewer names there are to share, the more tokens share few of them. -/
theorem burden_anti {names names' : List String} (h : names.Sublist names') (level : Nat)
    (ps : List Painted) : burden names' level ps ≤ burden names level ps := by
  induction ps generalizing names names' with
  | nil => exact Nat.le_refl _
  | cons p ps ih =>
      have hsub := shared_sublist_shared h [p]
      have hlength := hsub.length_le
      refine Nat.add_le_add ?_ (ih hsub)
      split
      · next hp =>
        simp only [Bool.and_eq_true, decide_eq_true_eq] at hp
        rw [if_pos]
        simp only [Bool.and_eq_true, decide_eq_true_eq]
        exact ⟨hp.1, by omega⟩
      · exact Nat.zero_le _

/-- Commas weigh nothing. -/
theorem burden_counted (names : List String) (level : Nat) (ps : List Painted) :
    burden names level (counted ps) = burden names level ps := by
  induction ps generalizing names with
  | nil => rfl
  | cons p ps ih =>
      by_cases hp : p.isMark "," = true
      · have hshared : shared names [p] = names := by simp [shared, counted, hp]
        have hcounted : counted (p :: ps) = counted ps := by simp [counted, hp]
        simp [burden, hp, hshared, hcounted, ih]
      · have hcounted : counted (p :: ps) = p :: counted ps := by simp [counted, hp]
        rw [hcounted, burden, burden, ih]

/-- A text that loses tokens weighs no more. -/
theorem burden_le_of_sublist {ps qs : List Painted} (h : ps.Sublist qs) (names : List String)
    (level : Nat) : burden names level ps ≤ burden names level qs := by
  induction h generalizing names with
  | slnil => exact Nat.le_refl _
  | @cons ps qs q _ ih =>
      calc burden names level ps
          ≤ burden names level qs := ih names
        _ ≤ burden (shared names [q]) level qs := burden_anti (shared_sublist names [q]) level qs
        _ ≤ burden names level (q :: qs) := Nat.le_add_left _ _
  | cons_cons p _ ih => exact Nat.add_le_add_left (ih _) _

theorem burden_le_of_counted {ps qs : List Painted} (h : (counted ps).Sublist (counted qs))
    (names : List String) (level : Nat) : burden names level ps ≤ burden names level qs := by
  rw [← burden_counted names level ps, ← burden_counted names level qs]
  exact burden_le_of_sublist h names level

/-- Tokens that all hide more than `level` of the names weigh nothing at that level. -/
theorem burden_eq_zero {names kept : List String} {level : Nat} {ps : List Painted}
    (hkept : kept.Sublist names) (hlevel : level < kept.length)
    (h : ∀ p ∈ ps, ∀ n ∈ kept, n ∈ p.hidden) : burden names level ps = 0 := by
  induction ps generalizing names with
  | nil => rfl
  | cons p ps ih =>
      have hsub : kept.Sublist (shared names [p]) :=
        sublist_shared hkept fun n hn q hq => by
          rw [List.mem_singleton.1 (List.mem_of_mem_filter hq)]
          exact h p List.mem_cons_self n hn
      have hlength := hsub.length_le
      rw [burden, ih hsub fun q hq => h q (List.mem_cons_of_mem _ hq), if_neg]
      simp only [Bool.and_eq_true, decide_eq_true_eq, not_and]
      omega

/-- The last token of a text shares the names that the whole text shares. -/
theorem burden_concat (names : List String) (ps : List Painted) {last : Painted}
    (hlast : last.isMark "," = false) :
    burden names (shared names (ps ++ [last])).length (ps ++ [last]) =
      burden names (shared names (ps ++ [last])).length ps + 1 := by
  rw [burden_append]
  simp [burden, hlast, shared_append]

/-! ### Getting lighter -/

/-- At some number of shared names the text `ps` has fewer tokens than `qs`, and at no smaller
number it has more. -/
def Lighter (names : List String) (ps qs : List Painted) : Prop :=
  ∃ level ≤ names.length, (∀ l < level, burden names l ps ≤ burden names l qs) ∧
    burden names level ps < burden names level qs

/-- **Texts do not get lighter forever.** -/
theorem wellFounded_lighter (names : List String) : WellFounded (Lighter names) := by
  -- The burdens at all levels are compared as words are in a dictionary, the smallest level first.
  have hlex : WellFounded (Pi.Lex (· < ·) (· < ·) :
      (Fin (names.length + 1) → ℕ) → (Fin (names.length + 1) → ℕ) → Prop) :=
    Pi.Lex.wellFounded _ fun _ => wellFounded_lt
  refine Subrelation.wf ?_ (InvImage.wf
    (fun (ps : List Painted) (level : Fin (names.length + 1)) => burden names level ps) hlex)
  rintro ps qs ⟨level, hlevel, hle, hlt⟩
  have hex : ∃ l, burden names l ps < burden names l qs := ⟨level, hlt⟩
  have hfirst : Nat.find hex ≤ level := Nat.find_min' hex hlt
  refine ⟨⟨Nat.find hex, by omega⟩, fun l hl => ?_, Nat.find_spec hex⟩
  have hl' : (l : ℕ) < Nat.find hex := hl
  exact Nat.le_antisymm (hle l (by omega)) (Nat.le_of_not_lt (Nat.find_min hex hl'))

end Painted

/-! ### Calls -/

open Painted (counted shared burden Lighter)

namespace Invocation

/-- The tokens of the arguments of a call stand before its closing parenthesis, and all that
stands there besides are commas between them. -/
theorem exists_of_readFrom {nesting : Nat} {current text : List Painted}
    {done : List (List Painted)} {list : ArgumentList}
    (h : readFrom nesting current done text = some list) :
    ∃ mid, text = mid ++ list.close :: list.rest ∧ list.close.isMark ")" = true ∧
      counted list.arguments.flatten =
        counted (done.reverse.flatten ++ current.reverse ++ mid) := by
  induction text generalizing nesting current done with
  | nil => cases h
  | cons t rest ih =>
      -- A token of an argument is read after the tokens of the argument before it.
      have hheld : ∀ {nesting}, readFrom nesting (t :: current) done rest = some list →
          ∃ mid, t :: rest = mid ++ list.close :: list.rest ∧ list.close.isMark ")" = true ∧
            counted list.arguments.flatten =
              counted (done.reverse.flatten ++ current.reverse ++ mid) := by
        intro nesting h
        obtain ⟨mid, hrest, hclose, hcounted⟩ := ih h
        exact ⟨t :: mid, by simp [hrest], hclose, by simpa using hcounted⟩
      rw [readFrom.eq_def] at h
      simp only at h
      split at h
      · exact hheld h
      · split at h
        · next hclose =>
          cases nesting with
          | zero =>
              cases h
              exact ⟨[], rfl, hclose, by simp⟩
          | succ nesting => exact hheld h
        · split at h
          · next hcomma =>
            obtain ⟨mid, hrest, hclose, hcounted⟩ := ih h
            have ht : t.isMark "," = true := (Bool.and_eq_true_iff.1 hcomma).1
            refine ⟨t :: mid, by simp [hrest], hclose, ?_⟩
            rw [hcounted]
            simp [counted, ht]
          · exact hheld h

theorem exists_of_readArguments {text : List Painted} {list : ArgumentList}
    (h : readArguments text = some list) :
    ∃ mid, text = mid ++ list.close :: list.rest ∧ list.close.isMark ")" = true ∧
      counted list.arguments.flatten = counted mid := by
  simpa using exists_of_readFrom h

/-- The commas that are written between arguments do not count. -/
theorem counted_written (arguments : List (List Painted)) :
    counted (written arguments) = counted arguments.flatten := by
  cases arguments with
  | nil => rfl
  | cons argument rest =>
      have hcomma : ∀ ps, counted (comma :: ps) = counted ps := fun ps => rfl
      rw [written, List.flatten_cons, Painted.counted_append, Painted.counted_append]
      congr 1
      induction rest with
      | nil => rfl
      | cons next rest ih =>
          rw [List.flatMap_cons, List.flatten_cons, Painted.counted_append,
            Painted.counted_append, hcomma, ih]

end Invocation

/-- The slots of a call hold tokens of its arguments. -/
theorem Definition.counted_sublist_of_bind {d : Definition}
    {arguments actuals : List (List Painted)} (h : d.bind arguments = .ok actuals)
    {a : List Painted} (ha : a ∈ actuals) :
    (counted a).Sublist (counted arguments.flatten) := by
  have hmem : a ∈ arguments → (counted a).Sublist (counted arguments.flatten) := fun ha =>
    (List.sublist_flatten_of_mem ha).filter _
  unfold bind at h
  cases hp : d.parameters with
  | none =>
      rw [hp] at h
      cases h
      cases ha
  | some names =>
      simp only [hp] at h
      split at h
      · split at h
        · cases h
          rcases List.mem_append.1 ha with ha | ha
          · exact hmem (List.mem_of_mem_take ha)
          · rw [List.mem_singleton.1 ha, Invocation.counted_written]
            exact (List.drop_sublist _ _).flatten.filter _
        · split at h
          · cases h
            cases ha
          · cases h
            exact hmem ha
      · cases h

namespace Scan

variable {table : MacroTable}

/-- The tokens that a call takes off a text. -/
structure Takes (table : MacroTable) (text : List Painted) (c : Call) (before : List Painted)
    (last : Painted) : Prop where
  /-- The call ends with the token `last`. -/
  split : text = before ++ last :: c.rest
  last_counts : last.isMark "," = false
  arguments_before : (counted c.arguments.flatten).Sublist (counted before)
  /-- The replacement hides what all tokens up to the last one hide. -/
  hides_shared : ∀ n, (∀ p ∈ counted (before ++ [last]), n ∈ p.hidden) → n ∈ c.hidden
  hides_name : c.definition.name ∈ c.hidden
  /-- One of the tokens names the macro and does not hide that name. -/
  named : ∃ p ∈ counted (before ++ [last]), p.text ∉ p.hidden ∧
    table[p.text]? = some c.definition

theorem exists_of_definition? {p : Painted} {d : Definition} (h : definition? table p = some d) :
    p.kind = .identifier ∧ p.text ∉ p.hidden ∧ table[p.text]? = some d := by
  unfold definition? at h
  split at h
  · next hp =>
    simp only [Bool.and_eq_true, decide_eq_true_eq, Bool.not_eq_true'] at hp
    refine ⟨hp.1, fun hmem => ?_, h⟩
    rw [Painted.isHidden_iff.2 hmem] at hp
    cases hp.2
  · cases h

namespace Takes

variable {text : List Painted} {c : Call} {before : List Painted} {last : Painted}

/-- Tokens that a scan passes over before a call are taken with it. -/
theorem cons (h : Takes table text c before last) (p : Painted) :
    Takes table (p :: text) c (p :: before) last := by
  have hsub : counted (before ++ [last]) ⊆ counted (p :: before ++ [last]) := by
    rw [List.cons_append]
    exact ((List.sublist_cons_self p _).filter _).subset
  obtain ⟨q, hq, hfree, hname⟩ := h.named
  exact ⟨by rw [h.split, List.cons_append], h.last_counts,
    h.arguments_before.trans ((List.sublist_cons_self p before).filter _),
    fun n hn => h.hides_shared n fun q hq => hn q (hsub hq), h.hides_name, q, hsub hq, hfree, hname⟩

end Takes

/-- The call of a function-like macro ends with its closing parenthesis. -/
theorem exists_takes_function {p : Painted} {d : Definition} (hkind : p.kind = .identifier)
    (hfree : p.text ∉ p.hidden) (hname : table[p.text]? = some d) {after : List Painted}
    {list : Invocation.ArgumentList} (hread : Invocation.readArguments after = some list)
    (opening : Painted) :
    ∃ before last, Takes table (p :: opening :: after)
      ⟨p, d, list.arguments, (p.hidden.inter list.close.hidden).add d.name, list.rest⟩
      before last := by
  obtain ⟨mid, hafter, hclose, hcounted⟩ := Invocation.exists_of_readArguments hread
  have hlast : list.close.isMark "," = false := Token.isMark_of_ne hclose (by decide)
  have hp : p.isMark "," = false := Token.isMark_of_identifier hkind ","
  have hmem : p ∈ counted (p :: opening :: mid ++ [list.close]) := by simp [counted, hp]
  have hmem' : list.close ∈ counted (p :: opening :: mid ++ [list.close]) := by
    simp [counted, hlast]
  refine ⟨p :: opening :: mid, list.close, by simp [hafter], hlast, ?_, fun n hn => ?_, ?_, p, hmem,
    hfree, hname⟩
  · rw [hcounted]
    exact (List.sublist_append_right [p, opening] mid).filter _
  · exact HideSet.mem_add.2 (.inr (HideSet.mem_inter.2 ⟨hn p hmem, hn _ hmem'⟩))
  · exact HideSet.mem_add.2 (.inl rfl)

/-- A scan takes the tokens of a call that it meets. -/
theorem exists_takes {out out' text : List Painted} {c : Call}
    (h : advance table out text = (out', .call c)) :
    ∃ before last, Takes table text c before last := by
  induction text generalizing out with
  | nil => cases h
  | cons p rest ih =>
      have hpassed : ∀ {out}, advance table out rest = (out', .call c) →
          ∃ before last, Takes table (p :: rest) c before last := by
        intro out h
        obtain ⟨before, last, htakes⟩ := ih h
        exact ⟨p :: before, last, htakes.cons p⟩
      rw [advance.eq_def] at h
      simp only at h
      cases hd : definition? table p with
      | none =>
          rw [hd] at h
          exact hpassed h
      | some d =>
          obtain ⟨hkind, hfree, hname⟩ := exists_of_definition? hd
          have hp : p.isMark "," = false := Token.isMark_of_identifier hkind ","
          rw [hd] at h
          simp only at h
          split at h
          · cases rest with
            | nil => cases h
            | cons next after =>
                simp only at h
                split at h
                · cases hread : Invocation.readArguments after with
                  | none =>
                      rw [hread] at h
                      cases h
                  | some list =>
                      rw [hread] at h
                      cases h
                      exact exists_takes_function hkind hfree hname hread next
                · exact hpassed h
          · cases h
            refine ⟨[], p, rfl, hp, List.Sublist.refl _, fun n hn => ?_, ?_, p, ?_, hfree, hname⟩
            · exact HideSet.mem_add.2 (.inr (hn p (by simp [counted, hp])))
            · exact HideSet.mem_add.2 (.inl rfl)
            · simp [counted, hp]

namespace Takes

variable {text : List Painted} {c : Call} {before : List Painted} {last : Painted}

/-- A scan that takes a call finds its macro under the name that one of the tokens has. -/
theorem exists_named (h : Takes table text c before last) (hfiled : table.Filed) :
    c.definition.name ∈ table.keys ∧
      ∃ p ∈ counted (before ++ [last]), c.definition.name ∉ p.hidden := by
  obtain ⟨p, hp, hfree, hname⟩ := h.named
  have heq : c.definition.name = p.text := (hfiled _ _ hname).1
  rw [heq]
  exact ⟨MacroTable.mem_keys_of_getElem? hname, p, hp, hfree⟩

/-- The replacement of a call hides the names that the tokens of the call share. -/
theorem shared_sublist_hidden (h : Takes table text c before last) (names : List String) :
    (shared names (before ++ [last])).Sublist (names.filter fun n => c.hidden.contains n) := by
  refine List.monotone_filter_right names fun n hn => ?_
  rw [List.contains_iff_mem]
  exact h.hides_shared n fun p hp => by simpa using List.all_eq_true.1 hn p hp

/-- The replacement of a call hides more names of macros than the tokens of the call share. -/
theorem length_shared_lt (h : Takes table text c before last) (hfiled : table.Filed) :
    (shared table.keys (before ++ [last])).length <
      (table.keys.filter fun n => c.hidden.contains n).length := by
  have hsub := h.shared_sublist_hidden table.keys
  obtain ⟨hkey, p, hp, hfree⟩ := h.exists_named hfiled
  refine Nat.lt_of_le_of_ne hsub.length_le fun heq => hfree ?_
  have hmem : c.definition.name ∈ table.keys.filter fun n => c.hidden.contains n :=
    List.mem_filter.2 ⟨hkey, List.contains_iff_mem.2 h.hides_name⟩
  rw [← hsub.eq_of_length heq] at hmem
  exact (Painted.mem_shared.1 hmem).2 p hp

/-- **A call leaves a lighter text.** -/
theorem lighter_replaced (h : Takes table text c before last) (hfiled : table.Filed)
    {replacement : List Painted}
    (hreplacement : ∀ p ∈ replacement, ∀ n ∈ c.hidden, n ∈ p.hidden) :
    Lighter table.keys (replacement ++ c.rest) text := by
  have hlt := h.length_shared_lt hfiled
  have hsub := h.shared_sublist_hidden table.keys
  generalize hkept : (table.keys.filter fun n => c.hidden.contains n) = kept at hlt hsub
  have hhidden : ∀ p ∈ replacement, ∀ n ∈ kept, n ∈ p.hidden := by
    intro p hp n hn
    rw [← hkept, List.mem_filter, List.contains_iff_mem] at hn
    exact hreplacement p hp n hn.2
  have hkeys : kept.Sublist table.keys := hkept ▸ List.filter_sublist
  -- Up to the level of the call the replacement weighs nothing, and the rest weighs no more.
  have hle : ∀ level ≤ (shared table.keys (before ++ [last])).length,
      burden table.keys level (replacement ++ c.rest) ≤
        burden (shared table.keys (before ++ [last])) level c.rest := by
    intro level hlevel
    rw [Painted.burden_append, Painted.burden_eq_zero hkeys (by omega) hhidden, Nat.zero_add]
    have hkept : kept.Sublist (shared table.keys replacement) :=
      Painted.sublist_shared hkeys fun n hn p hp => hhidden p (List.mem_of_mem_filter hp) n hn
    exact Painted.burden_anti (hsub.trans hkept) level c.rest
  have htext : ∀ level, burden table.keys level text =
      burden table.keys level (before ++ [last]) +
        burden (shared table.keys (before ++ [last])) level c.rest := by
    intro level
    rw [← Painted.burden_append, h.split, List.append_cons]
  refine ⟨_, (Painted.shared_sublist table.keys (before ++ [last])).length_le,
    fun level hlevel => ?_, ?_⟩
  · rw [htext]
    exact Nat.le_trans (hle level (by omega)) (Nat.le_add_left _ _)
  · have hlast := Painted.burden_concat table.keys before h.last_counts
    have := hle _ (Nat.le_refl _)
    rw [htext]
    omega

/-- **The arguments of a call are lighter than the text with the call.** -/
theorem lighter_argument (h : Takes table text c before last) (names : List String)
    {a : List Painted} (ha : (counted a).Sublist (counted c.arguments.flatten)) :
    Lighter names a text := by
  have hle : ∀ level, burden names level a ≤ burden names level before := fun level =>
    Painted.burden_le_of_counted (ha.trans h.arguments_before) names level
  have htext : ∀ level,
      burden names level (before ++ [last]) ≤ burden names level text := fun level => by
    have happend : text = (before ++ [last]) ++ c.rest := by rw [h.split, List.append_cons]
    rw [happend, Painted.burden_append names level (before ++ [last]) c.rest]
    exact Nat.le_add_right _ _
  refine ⟨_, (Painted.shared_sublist names (before ++ [last])).length_le, fun level _ => ?_, ?_⟩
  · refine Nat.le_trans (hle level) (Nat.le_trans ?_ (htext level))
    rw [Painted.burden_append]
    exact Nat.le_add_right _ _
  · have hlast := Painted.burden_concat names before h.last_counts
    have := hle (shared names (before ++ [last])).length
    have := htext (shared names (before ++ [last])).length
    omega

end Takes

end Scan

end VariadicMacros
