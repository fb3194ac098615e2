/-
**Calls with words: lining up arguments and filling in bodies.**

A macro whose replacement list holds neither `#` nor `##` is filled in token by token: a token
that stands for a parameter gives way to the expanded argument, and every other token stays.  What
comes of a call can then be said with words: the arguments are lined up with the slots of the
definition, the slots are expanded, and the body is filled in with the results.  An argument is
expanded when its parameter is met for the first time, so that every slot is paid for once.

Main definitions:

* `VariadicMacros.Definition.takes`, `VariadicMacros.Definition.slots` — calls with words;
* `VariadicMacros.Definition.filled` — the words of a filled-in body;
* `VariadicMacros.Substitution.pending` — what the slots not expanded yet may cost.

Main results:

* `VariadicMacros.Definition.exists_bind` — the arguments of a call fill the slots;
* `VariadicMacros.Substitution.shows_filledTokens` — a filled-in body shows its words;
* `VariadicMacros.Definition.exists_replacement` — **the replacement of a quiet macro is its
  filled-in body**, and costs no more than the expansion of every slot once.
-/

import VariadicMacros.Proofs.Words
import VariadicMacros.Proofs.WrittenDefinition
import VariadicMacros.Substitution

set_option autoImplicit false

namespace VariadicMacros

open Painted (Shows)

namespace Definition

/-! ### Slots -/

/-- Whether an argument list suits a macro; no argument at all is written as an empty one. -/
def takes (d : Definition) (arguments : List (List Word)) : Bool :=
  if d.demand = .exactly 0 then arguments == [[]]
  else !arguments.isEmpty && d.demand.accepts arguments.length

/-- The arguments lined up with the parameters of a macro. -/
def slots (d : Definition) (arguments : List (List Word)) : List (List Word) :=
  match d.parameters with
  | none => []
  | some names =>
    if d.variadic then
      arguments.take names.length ++ [Word.list (arguments.drop names.length)]
    else if names.isEmpty then []
    else arguments

theorem ne_nil_of_takes {d : Definition} {arguments : List (List Word)}
    (h : d.takes arguments = true) : arguments ≠ [] := by
  rintro rfl
  unfold takes at h
  split at h <;> simp at h

/-- The arguments of a call fill the slots of the macro. -/
theorem exists_bind {d : Definition} (hd : d.isFunctionLike = true) {hidden : List String}
    {actuals : List (List Painted)} {arguments : List (List Word)}
    (h : List.Forall₂ (Shows hidden) actuals arguments) (htakes : d.takes arguments = true) :
    ∃ bound, d.bind actuals = .ok bound ∧
      List.Forall₂ (Shows hidden) bound (d.slots arguments) := by
  have hsuits : d.suits actuals = true := by
    unfold takes at htakes
    unfold suits
    split at htakes
    · next hdemand =>
      rw [if_pos hdemand]
      rw [beq_iff_eq] at htakes
      subst htakes
      cases h with
      | cons ha hrest =>
          cases hrest
          rw [ha.eq_nil]
          rfl
    · next hdemand =>
      rw [if_neg hdemand, h.length_eq]
      rw [Bool.and_eq_true] at htakes
      exact htakes.2
  obtain ⟨names, hnames⟩ := Option.isSome_iff_exists.1 hd
  unfold bind slots
  simp only [hnames, hsuits, if_true]
  split
  · refine ⟨_, rfl, ?_⟩
    refine List.rel_append (List.forall₂_take _ h) (.cons ?_ .nil)
    exact Invocation.shows_written (List.forall₂_drop _ h)
  · split
    · exact ⟨_, rfl, .nil⟩
    · exact ⟨_, rfl, h⟩

/-! ### Bodies -/

/-- The words that come of a token of the body. -/
def filling (d : Definition) (results : List (List Word)) (t : Token) : List Word :=
  match d.parameterIndex? t with
  | none => [t.word]
  | some i => results.getD i []

/-- The words of a body in which the slots are filled in. -/
def filled (d : Definition) (results : List (List Word)) : List Word :=
  d.body.flatMap (d.filling results)

end Definition

namespace Substitution

/-- The tokens of a body in which the slots are filled in. -/
def filledTokens (d : Definition) (outs : List (List Painted)) (body : List Token) :
    List Painted :=
  body.flatMap fun t =>
    match d.parameterIndex? t with
    | none => [.plain t]
    | some i => Painted.respace t.spaced (outs.getD i [])

theorem shows_getD {hidden : List String} {outs : List (List Painted)}
    {results : List (List Word)} (h : List.Forall₂ (Shows hidden) outs results) (i : Nat) :
    Shows hidden (outs.getD i []) (results.getD i []) := by
  induction h generalizing i with
  | nil => exact .nil
  | cons h _ ih =>
      cases i with
      | zero => exact h
      | succ i => exact ih i

/-- A filled-in body shows its words. -/
theorem shows_filledTokens {hidden : List String} {d : Definition} {outs : List (List Painted)}
    {results : List (List Word)} (h : List.Forall₂ (Shows hidden) outs results) :
    Shows hidden (filledTokens d outs d.body) (d.filled results) := by
  unfold filledTokens Definition.filled
  induction d.body with
  | nil => exact .nil
  | cons t ts ih =>
      rw [List.flatMap_cons, List.flatMap_cons]
      refine Shows.append ?_ ih
      unfold Definition.filling
      cases d.parameterIndex? t with
      | none => exact Shows.nil.cons (by simp)
      | some i => exact (shows_getD h i).respace _

/-! ### What expanding the slots may cost -/

/-- What the slots from `first` on may cost that are not expanded yet. -/
def pending (expanded : List (Nat × List Painted)) (first : Nat) : List Nat → Nat
  | [] => 0
  | cost :: costs =>
    (if (expanded.lookup first).isNone then cost else 0) + pending expanded (first + 1) costs

theorem pending_nil (first : Nat) (costs : List Nat) : pending [] first costs = costs.sum := by
  induction costs generalizing first with
  | nil => rfl
  | cons cost costs ih => simp [pending, ih]

theorem pending_cons_of_lt {expanded : List (Nat × List Painted)} {tokens : List Painted}
    {i first : Nat} (h : i < first) (costs : List Nat) :
    pending ((i, tokens) :: expanded) first costs = pending expanded first costs := by
  induction costs generalizing first with
  | nil => rfl
  | cons cost costs ih =>
      have hne : (first == i) = false := beq_eq_false_iff_ne.2 (by omega)
      rw [pending, pending, ih (by omega), List.lookup_cons, hne]

/-- A slot that is expanded is not pending any more. -/
theorem pending_cons {expanded : List (Nat × List Painted)} (tokens : List Painted)
    {first i : Nat} {costs : List Nat} (hnone : expanded.lookup (first + i) = none)
    (hi : i < costs.length) :
    pending ((first + i, tokens) :: expanded) first costs + costs.getD i 0 =
      pending expanded first costs := by
  induction costs generalizing first i with
  | nil => exact absurd hi (by simp)
  | cons cost costs ih =>
      cases i with
      | zero =>
          rw [Nat.add_zero] at hnone ⊢
          rw [pending, pending, pending_cons_of_lt (by omega), hnone, List.lookup_cons]
          simp [Nat.add_comm]
      | succ i =>
          have hne : (first == first + (i + 1)) = false := beq_eq_false_iff_ne.2 (by omega)
          have hshift : first + (i + 1) = first + 1 + i := by omega
          have hnone' : expanded.lookup (first + 1 + i) = none := hshift ▸ hnone
          have hrest := ih hnone' (by simpa using hi)
          rw [pending, pending, List.lookup_cons, hne, hshift, List.getD_cons_succ]
          simp only
          omega

/-! ### The walk over a quiet body -/

section Walk

variable {d : Definition} {actuals outs : List (List Painted)} {costs : List Nat} {limit : Nat}
  {expandArgument : ExpandArgument}

/-- Without operators a body is walked over token by token. -/
theorem fill_cons {t : Token} {ts : List Token}
    (hquiet : ∀ u ∈ t :: ts, u.isMark "#" = false ∧ u.isMark "##" = false) (w : Walk) :
    fill d actuals expandArgument (t :: ts) w =
      match d.parameterIndex? t with
      | none => fill d actuals expandArgument ts (w.emit [.plain t])
      | some i =>
        match w.expansion expandArgument actuals i with
        | .error e => .error e
        | .ok (tokens, w) =>
          fill d actuals expandArgument ts (w.emit (Painted.respace t.spaced tokens)) := by
  have ht := hquiet t (by simp)
  have hnil : ∀ w, fill d actuals expandArgument [] w = .ok w := fun w => by rw [fill]
  -- The walk takes the last token apart from the others, since no operator can follow it.
  cases ts with
  | nil =>
      simp only [hnil]
      exact fill.eq_def d actuals expandArgument [t] w
  | cons u us =>
      have hu := hquiet u (by simp)
      have hfill := fill.eq_def d actuals expandArgument (t :: u :: us) w
      simp only [ht.1, ht.2, hu.2, Bool.false_and, Bool.false_eq_true, if_false] at hfill
      exact hfill

/-- A walk knows the expansions of the slots that it remembers. -/
def Knows (outs : List (List Painted)) (w : Walk) : Prop :=
  ∀ i tokens, w.expanded.lookup i = some tokens → tokens = outs.getD i []

/-- Every slot expands to its result at no more than its cost, as long as the limit allows. -/
def Affords (limit : Nat) (expandArgument : ExpandArgument) (costs : List Nat)
    (actuals outs : List (List Painted)) : Prop :=
  ∀ i < costs.length, ∀ steps, steps + costs.getD i 0 ≤ limit →
    ∃ used ≤ costs.getD i 0,
      expandArgument (actuals.getD i []) steps = .ok (outs.getD i [], steps + used)

/-- The expansion of a slot is its result, and what was paid for it is not pending any more. -/
theorem exists_expansion (hafford : Affords limit expandArgument costs actuals outs) {w : Walk}
    (hknows : Knows outs w) (hlimit : w.steps + pending w.expanded 0 costs ≤ limit) {i : Nat}
    (hi : i < costs.length) :
    ∃ w' : Walk, w.expansion expandArgument actuals i = .ok (outs.getD i [], w') ∧
      Knows outs w' ∧ w'.out = w.out ∧ w.steps ≤ w'.steps ∧
      w'.steps + pending w'.expanded 0 costs ≤ w.steps + pending w.expanded 0 costs := by
  unfold Walk.expansion
  cases hlookup : w.expanded.lookup i with
  | some tokens =>
      refine ⟨w, ?_, hknows, rfl, Nat.le_refl _, Nat.le_refl _⟩
      rw [hknows i tokens hlookup]
  | none =>
      have hnone : w.expanded.lookup (0 + i) = none := by rwa [Nat.zero_add]
      have hpending := pending_cons (outs.getD i []) hnone hi
      rw [Nat.zero_add] at hpending
      obtain ⟨used, hused, hexpand⟩ := hafford i hi w.steps (by omega)
      refine ⟨{ w with expanded := (i, outs.getD i []) :: w.expanded, steps := w.steps + used },
        ?_, ?_, rfl, Nat.le_add_right _ _, ?_⟩
      · simp only [hexpand]
      · intro j tokens hj
        rw [List.lookup_cons] at hj
        split at hj
        · next heq =>
          rw [eq_of_beq heq]
          exact (Option.some_inj.1 hj).symm
        · exact hknows j tokens hj
      · simp only
        omega

/-- **A walk over a quiet body emits the body with the slots filled in.** -/
theorem exists_fill (hslots : costs.length = d.slotCount)
    (hafford : Affords limit expandArgument costs actuals outs) {body : List Token}
    (hquiet : ∀ t ∈ body, t.isMark "#" = false ∧ t.isMark "##" = false) {w : Walk}
    (hknows : Knows outs w) (hlimit : w.steps + pending w.expanded 0 costs ≤ limit) :
    ∃ w' : Walk, fill d actuals expandArgument body w = .ok w' ∧
      w'.out = (filledTokens d outs body).reverse ++ w.out ∧ w.steps ≤ w'.steps ∧
      w'.steps ≤ w.steps + pending w.expanded 0 costs := by
  induction body generalizing w with
  | nil => exact ⟨w, by rw [fill], rfl, Nat.le_refl _, Nat.le_add_right _ _⟩
  | cons t ts ih =>
      have hts : ∀ u ∈ ts, u.isMark "#" = false ∧ u.isMark "##" = false :=
        fun u hu => hquiet u (List.mem_cons_of_mem _ hu)
      rw [fill_cons hquiet]
      have htokens : filledTokens d outs (t :: ts) =
          (match d.parameterIndex? t with
            | none => [.plain t]
            | some i => Painted.respace t.spaced (outs.getD i [])) ++ filledTokens d outs ts := rfl
      rw [htokens]
      cases hindex : d.parameterIndex? t with
      | none =>
          obtain ⟨w', hfill, hout, hle, hcost⟩ := ih hts (w := w.emit [.plain t]) hknows hlimit
          exact ⟨w', hfill, by simpa [Walk.emit] using hout, hle, hcost⟩
      | some i =>
          have hi : i < costs.length := by
            rw [hslots]
            exact Definition.parameterIndex?_lt hindex
          obtain ⟨w₁, hexpansion, hknows₁, hout₁, hle₁, hcost₁⟩ :=
            exists_expansion hafford hknows hlimit hi
          obtain ⟨w', hfill, hout, hle, hcost⟩ :=
            ih hts (w := w₁.emit (Painted.respace t.spaced (outs.getD i []))) hknows₁
              (Nat.le_trans hcost₁ hlimit)
          refine ⟨w', ?_, ?_, Nat.le_trans hle₁ hle, Nat.le_trans hcost hcost₁⟩
          · simp only [hexpansion]
            exact hfill
          · simpa [Walk.emit, hout₁] using hout

end Walk

end Substitution

/-- **The replacement of a quiet macro is its filled-in body**, and costs no more than the expansion
of every slot once. -/
theorem Definition.exists_replacement {d : Definition} (hquiet : d.isQuiet = true)
    {actuals outs : List (List Painted)} {costs : List Nat} {limit : Nat}
    {expandArgument : Substitution.ExpandArgument} (hslots : costs.length = d.slotCount)
    (hafford : Substitution.Affords limit expandArgument costs actuals outs) (names : HideSet)
    {steps : Nat} (hsteps : steps + costs.sum ≤ limit) :
    ∃ used ≤ costs.sum, d.replacement actuals expandArgument names steps =
      .ok ((Substitution.filledTokens d outs d.body).map (Painted.hide names), steps + used) := by
  simp only [isQuiet, List.all_eq_true, Bool.and_eq_true, Bool.not_eq_true'] at hquiet
  have hknows : Substitution.Knows outs ⟨[], [], steps⟩ := by
    intro i tokens h
    cases h
  obtain ⟨w, hfill, hout, hle, hcost⟩ :=
    Substitution.exists_fill hslots hafford hquiet hknows (by rwa [Substitution.pending_nil])
  rw [Substitution.pending_nil] at hcost
  simp only at hle hcost
  refine ⟨w.steps - steps, by omega, ?_⟩
  rw [replacement, hfill, Nat.add_sub_cancel' hle]
  simp [hout]

end VariadicMacros
