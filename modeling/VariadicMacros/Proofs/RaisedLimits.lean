/-
**Limits only cut.**

Two scans of a text find the same calls, whatever their limits are.  As long as no limit cuts the
first one short, the second one does the same if it has at least as much room: both show one
result, to which each of them adds what it had put out and the invocations that it had counted
before.  The two runs are followed side by side, through the walks over replacement lists and the
scans of arguments.

It follows that a scan that ends under some limits, with a text or with an error that is not about
a limit, ends the same way under all higher limits.

Main definitions:

* `VariadicMacros.MacroError.isLimit` — an error that only says that a limit was reached;
* `VariadicMacros.Scan.Uncut` — a result that no limit cut short;
* `VariadicMacros.Scan.resumed` — the result of a scan that resumes after others;
* `VariadicMacros.Scan.Parallel` — two results that show one result;
* `VariadicMacros.Scan.stopAt?` — where a scan stops that comes to a token.

Main results:

* `VariadicMacros.Substitution.parallel_replacement` — a replacement list is filled in the same
  way when its arguments expand the same way;
* `VariadicMacros.Scan.parallel_run` — **two scans of a text run side by side**;
* `VariadicMacros.Scan.run_eq_resumed` — raised limits do not change the result of a scan;
* `VariadicMacros.MacroTable.expand_eq_of_le` — **raised limits do not change an expansion**.
-/

import VariadicMacros.Proofs.Rewriting
import VariadicMacros.Proofs.WalkMoves

set_option autoImplicit false

namespace VariadicMacros

/-- Whether an error only says that a limit was reached. -/
def MacroError.isLimit : MacroError → Bool
  | .stepLimit _ => true
  | .depthLimit _ => true
  | _ => false

namespace Scan

/-! ### Results that no limit cut short -/

/-- A result that no limit cut short. -/
def Uncut {α : Type} (r : Except MacroError α) : Prop := ∀ e, r = .error e → e.isLimit = false

theorem uncut_ok {α : Type} (a : α) : Uncut (.ok a) := by
  intro e h
  cases h

theorem uncut_error {α : Type} {e : MacroError} (h : e.isLimit = false) :
    Uncut (.error e : Except MacroError α) := by
  rintro _ ⟨⟩
  exact h

theorem isLimit_eq_false_of_uncut {α : Type} {e : MacroError}
    (h : Uncut (.error e : Except MacroError α)) : e.isLimit = false :=
  h e rfl

/-- A limit that cut no result cuts nothing that is made of it. -/
theorem Uncut.map {α β : Type} {r : Except MacroError α} (h : Uncut r) (f : α → β) :
    Uncut (r.map f) := by
  cases r with
  | ok a => exact uncut_ok (f a)
  | error e => exact uncut_error (isLimit_eq_false_of_uncut h)

theorem uncut_of_map {α β : Type} {r : Except MacroError α} {f : α → β} (h : Uncut (r.map f)) :
    Uncut r := by
  rintro e rfl
  exact isLimit_eq_false_of_uncut h

theorem uncut_iff {α : Type} {r : Except MacroError α} :
    Uncut r ↔
      (∀ limit, r ≠ .error (.stepLimit limit)) ∧ ∀ limit, r ≠ .error (.depthLimit limit) := by
  constructor
  · intro h
    refine ⟨fun limit hr => ?_, fun limit hr => ?_⟩
    · cases h _ hr
    · cases h _ hr
  · rintro ⟨hstep, hdepth⟩ e rfl
    cases e with
    | stepLimit limit => exact absurd rfl (hstep limit)
    | depthLimit limit => exact absurd rfl (hdepth limit)
    | _ => rfl

/-- What a scan puts out and counts when it resumes after `done` was put out and `k` invocations
were counted. -/
def resume (done : List Painted) (k : Nat) (x : List Painted × Nat) : List Painted × Nat :=
  (done ++ x.1, k + x.2)

/-- The result of a scan that resumes after `done` was put out and `k` invocations were counted. -/
def resumed (done : List Painted) (k : Nat) (r : Except MacroError (List Painted × Nat)) :
    Except MacroError (List Painted × Nat) :=
  r.map (resume done k)

@[simp] theorem resumed_ok (done : List Painted) (k : Nat) (x : List Painted × Nat) :
    resumed done k (.ok x) = .ok (done ++ x.1, k + x.2) := rfl

@[simp] theorem resumed_error (done : List Painted) (k : Nat) (e : MacroError) :
    resumed done k (.error e) = .error e := rfl

/-- A scan that resumes after nothing starts anew. -/
@[simp] theorem resumed_nil_zero (r : Except MacroError (List Painted × Nat)) :
    resumed [] 0 r = r := by
  cases r with
  | error e => rfl
  | ok x => simp

/-! ### Two runs side by side -/

/-- Two results show one result, the first through `f` and the second through `g`, unless a limit
cut the first one short. -/
def Parallel {α β γ : Type} (f : α → β) (g : α → γ) (r : Except MacroError β)
    (r' : Except MacroError γ) : Prop :=
  Uncut r → ∃ x : Except MacroError α, r = x.map f ∧ r' = x.map g

namespace Parallel

variable {α β γ α' β' γ' : Type} {f : α → β} {g : α → γ} {f' : α' → β'} {g' : α' → γ'}
  {r : Except MacroError β} {r' : Except MacroError γ}

theorem of_map (x : Except MacroError α) : Parallel f g (x.map f) (x.map g) :=
  fun _ => ⟨x, rfl, rfl⟩

theorem refl (r : Except MacroError α) : Parallel id id r r := by
  cases r with
  | error e => exact .of_map (.error e)
  | ok a => exact .of_map (.ok a)

/-- A result that is cut runs side by side with everything. -/
theorem of_uncut (h : Uncut r → Parallel f g r r') : Parallel f g r r' :=
  fun huncut => h huncut huncut

/-- What goes on side by side after two results that are side by side. -/
theorem bind {next : β → Except MacroError β'} {next' : γ → Except MacroError γ'}
    (h : Parallel f g r r')
    (hnext : ∀ x, r = .ok (f x) → Parallel f' g' (next (f x)) (next' (g x))) :
    Parallel f' g' (r.bind next) (r'.bind next') := by
  intro huncut
  cases r with
  | error e =>
      obtain ⟨x, hx, rfl⟩ := h (uncut_error (isLimit_eq_false_of_uncut huncut))
      cases x with
      | error e' =>
          cases hx
          exact ⟨.error e, rfl, rfl⟩
      | ok a => cases hx
  | ok b =>
      obtain ⟨x, hx, rfl⟩ := h (uncut_ok b)
      cases x with
      | error e => cases hx
      | ok a =>
          cases hx
          exact hnext a rfl huncut

theorem map {next : β → β'} {next' : γ → γ'} (via : α → α') (h : Parallel f g r r')
    (hnext : ∀ x, next (f x) = f' (via x)) (hnext' : ∀ x, next' (g x) = g' (via x)) :
    Parallel f' g' (r.map next) (r'.map next') := by
  intro huncut
  obtain ⟨x, rfl, rfl⟩ := h (uncut_of_map huncut)
  refine ⟨x.map via, ?_, ?_⟩
  · cases x with
    | error e => rfl
    | ok a => exact congrArg Except.ok (hnext a)
  · cases x with
    | error e => rfl
    | ok a => exact congrArg Except.ok (hnext' a)

end Parallel

end Scan

open Scan (Uncut Parallel resume resumed uncut_ok uncut_error isLimit_eq_false_of_uncut)

namespace Substitution

/-! ### Walks -/

/-- A walk that starts after `k` more invocations. -/
def Walk.resume (k : Nat) (w : Walk) : Walk := { w with steps := k + w.steps }

/-- An expansion of arguments does after `k` more invocations what another one does after `j` more
ones, as long as no limit cuts that short. -/
def Raises (j k : Nat) (expandArgument raised : ExpandArgument) : Prop :=
  ∀ argument steps, Parallel (Scan.resume [] j) (Scan.resume [] k)
    (expandArgument argument (j + steps)) (raised argument (k + steps))

section Equations

variable {d : Definition} {actuals : List (List Painted)} {expandArgument : ExpandArgument}

theorem expansion_eq_map {i : Nat} {w : Walk} (h : w.expanded.lookup i = none) :
    w.expansion expandArgument actuals i =
      (expandArgument (actuals.getD i []) w.steps).map fun x =>
        (x.1, { w with expanded := (i, x.1) :: w.expanded, steps := x.2 }) := by
  rw [Walk.expansion, h]
  cases expandArgument (actuals.getD i []) w.steps <;> rfl

theorem fill_eq_bind (t : Token) (rest : List Token) (w : Walk) :
    fill d actuals expandArgument (t :: rest) w =
      ((nextMove d actuals t rest).1.carryOut actuals expandArgument w).bind
        (fill d actuals expandArgument (nextMove d actuals t rest).2) := by
  rw [fill_eq_carryOut]
  cases (nextMove d actuals t rest).1.carryOut actuals expandArgument w <;> rfl

theorem replacement_eq_map (hidden : HideSet) (steps : Nat) :
    d.replacement actuals expandArgument hidden steps =
      (fill d actuals expandArgument d.body ⟨[], [], steps⟩).map fun w =>
        (w.out.reverse.map (Painted.hide hidden), w.steps) := by
  rw [Definition.replacement]
  cases fill d actuals expandArgument d.body ⟨[], [], steps⟩ <;> rfl

end Equations

section Raised

variable {d : Definition} {actuals : List (List Painted)} {j k : Nat}
  {expandArgument raised : ExpandArgument} (h : Raises j k expandArgument raised)

include h

theorem parallel_expansion (i : Nat) (w : Walk) :
    Parallel (fun r : List Painted × Walk => (r.1, r.2.resume j))
      (fun r : List Painted × Walk => (r.1, r.2.resume k))
      ((w.resume j).expansion expandArgument actuals i)
      ((w.resume k).expansion raised actuals i) := by
  cases hi : w.expanded.lookup i with
  | some tokens =>
      have hremembered : ∀ l e, (w.resume l).expansion e actuals i = .ok (tokens, w.resume l) := by
        intro l e
        rw [Walk.expansion, show (w.resume l).expanded.lookup i = some tokens from hi]
      rw [hremembered, hremembered]
      exact .of_map (.ok (tokens, w))
  | none =>
      rw [expansion_eq_map (w := w.resume j) hi, expansion_eq_map (w := w.resume k) hi]
      exact (h (actuals.getD i []) w.steps).map
        (fun x => (x.1, { w with expanded := (i, x.1) :: w.expanded, steps := x.2 }))
        (fun _ => rfl) fun _ => rfl

theorem parallel_carryOut (m : Move) (w : Walk) :
    Parallel (Walk.resume j) (Walk.resume k) (m.carryOut actuals expandArgument (w.resume j))
      (m.carryOut actuals raised (w.resume k)) := by
  cases m with
  | put tokens => exact .of_map (.ok (w.emit tokens))
  | glue right =>
      simp only [Move.carryOut]
      rw [show (w.resume j).out = w.out from rfl, show (w.resume k).out = w.out from rfl]
      cases paste w.out right with
      | error e => exact .of_map (.error e)
      | ok out => exact .of_map (.ok { w with out := out })
  | expand i spaced =>
      exact (parallel_expansion h i w).map (fun r => r.2.emit (Painted.respace spaced r.1))
        (fun _ => rfl) fun _ => rfl

theorem parallel_fill (body : List Token) (w : Walk) :
    Parallel (Walk.resume j) (Walk.resume k) (fill d actuals expandArgument body (w.resume j))
      (fill d actuals raised body (w.resume k)) := by
  refine walk_induction d actuals expandArgument
    (motive := fun body v => ∀ w : Walk, v = w.resume j → Parallel (Walk.resume j) (Walk.resume k)
      (fill d actuals expandArgument body v) (fill d actuals raised body (w.resume k)))
    ?nil ?cons body _ w rfl
  case nil =>
    rintro _ w rfl
    rw [fill_nil, fill_nil]
    exact .of_map (.ok w)
  case cons =>
    rintro t rest _ ih w rfl
    rw [fill_eq_bind, fill_eq_bind]
    exact (parallel_carryOut h _ w).bind fun x hx => ih _ hx x rfl

/-- A replacement list is filled in the same way when its arguments expand the same way. -/
theorem parallel_replacement (hidden : HideSet) (steps : Nat) :
    Parallel (Scan.resume [] j) (Scan.resume [] k)
      (d.replacement actuals expandArgument hidden (j + steps))
      (d.replacement actuals raised hidden (k + steps)) := by
  rw [replacement_eq_map, replacement_eq_map]
  exact (parallel_fill h d.body ⟨[], [], steps⟩).map
    (fun w => (w.out.reverse.map (Painted.hide hidden), w.steps)) (fun _ => rfl) fun _ => rfl

end Raised

end Substitution

namespace Scan

/-! ### Scans -/

variable {table : MacroTable}

/-- Where a scan stops that comes to the token `p` with `rest` after it: at an invocation of the
macro that the token names, or at one whose arguments have no end. -/
def stopAt? (table : MacroTable) (p : Painted) (rest : List Painted) : Option Stop :=
  match definition? table p with
  | none => none
  | some d =>
    if d.isFunctionLike then
      match rest with
      | [] => none
      | next :: after =>
        if next.isMark "(" then
          match Invocation.readArguments after with
          | none => some (.unterminated d)
          | some list =>
            let hidden := (p.hidden.inter list.close.hidden).add d.name
            some (.call ⟨p, d, list.arguments, hidden, list.rest⟩)
        else none
    else some (.call ⟨p, d, [], HideSet.add d.name p.hidden, rest⟩)

/-- The search for the next invocation goes token by token. -/
theorem advance_cons (out : List Painted) (p : Painted) (rest : List Painted) :
    advance table out (p :: rest) =
      match stopAt? table p rest with
      | none => advance table (p :: out) rest
      | some stop => (out, stop) := by
  rw [advance.eq_def, stopAt?]
  simp only
  cases definition? table p with
  | none => rfl
  | some d =>
      simp only
      split
      · cases rest with
        | nil => rfl
        | cons next after =>
            simp only
            split
            · cases Invocation.readArguments after <;> rfl
            · rfl
      · rfl

/-- What has been put out stays in front of what a scan passes over. -/
theorem advance_append (out base text : List Painted) :
    advance table (out ++ base) text =
      ((advance table out text).1 ++ base, (advance table out text).2) := by
  induction text generalizing out with
  | nil => rfl
  | cons p rest ih =>
      rw [advance_cons, advance_cons]
      cases stopAt? table p rest with
      | none => exact ih (p :: out)
      | some stop => rfl

section Run

variable {limits : Limits} {supply level steps : Nat} {out out' text : List Painted}

/-- A scan that meets no call ends with what it passed over. -/
theorem run_of_finished (h : advance table out text = (out', .finished)) :
    run table limits supply level steps out text = .ok (out'.reverse, steps) := by
  rw [run.eq_def, h]

/-- Tokens that name no macro are put out as they are. -/
theorem run_of_ignores (h : table.Ignores (text.map Painted.word)) :
    run table limits supply level steps out text = .ok (out.reverse ++ text, steps) := by
  have hadvance := advance_of_ignores h out []
  rw [List.append_nil] at hadvance
  rw [run_of_finished hadvance, List.reverse_append, List.reverse_reverse]

theorem run_of_unterminated {d : Definition}
    (h : advance table out text = (out', .unterminated d)) :
    run table limits supply level steps out text = .error (.unterminatedInvocation d.name) := by
  rw [run.eq_def, h]

/-- With room for it a scan carries out the call that it meets and goes on. -/
theorem run_of_call {c : Call} (h : advance table out text = (out', .call c))
    (hsteps : steps < limits.steps) :
    run table limits (supply + 1) level steps out text =
      match c.definition.bind c.arguments with
      | .error e => .error e
      | .ok actuals =>
        match c.definition.replacement actuals (scanArgument table limits supply level) c.hidden
            (steps + 1) with
        | .error e => .error e
        | .ok (replacement, steps) =>
          run table limits supply level steps out'
            (Painted.respace c.token.spaced replacement ++ c.rest) := by
  rw [run.eq_def, h]
  simp only [if_neg (Nat.not_le.2 hsteps)]
  rfl

/-- Without room for it the call that a scan meets is refused. -/
theorem run_of_no_room {c : Call} (h : advance table out text = (out', .call c))
    (hroom : ¬ (steps < limits.steps ∧ 0 < supply)) :
    run table limits supply level steps out text = .error (.stepLimit limits.steps) := by
  rw [run.eq_def, h]
  cases supply with
  | zero => rfl
  | succ supply =>
      refine if_pos (Nat.le_of_not_lt fun hsteps => ?_)
      exact hroom ⟨hsteps, Nat.succ_pos supply⟩

/-- A scan that is not cut has room for the call that it meets. -/
theorem exists_room_of_uncut {c : Call} (h : advance table out text = (out', .call c))
    (hrun : Uncut (run table limits supply level steps out text)) :
    steps < limits.steps ∧ ∃ supply', supply = supply' + 1 := by
  by_cases hroom : steps < limits.steps ∧ 0 < supply
  · exact ⟨hroom.1, Nat.exists_eq_add_of_le' hroom.2⟩
  · rw [run_of_no_room h hroom] at hrun
    cases isLimit_eq_false_of_uncut hrun

end Run

/-- With room for it a scan carries out the call that it meets, step by step. -/
theorem run_of_call_eq_bind {limits : Limits} {supply level steps : Nat}
    {out out' text : List Painted} {c : Call} (h : advance table out text = (out', .call c))
    (hsteps : steps < limits.steps) :
    run table limits (supply + 1) level steps out text =
      (c.definition.bind c.arguments).bind fun actuals =>
        (c.definition.replacement actuals (scanArgument table limits supply level) c.hidden
          (steps + 1)).bind fun r =>
            run table limits supply level r.2 out'
              (Painted.respace c.token.spaced r.1 ++ c.rest) := by
  rw [run_of_call h hsteps]
  cases c.definition.bind c.arguments with
  | error e => rfl
  | ok actuals =>
      simp only [Except.bind]
      cases c.definition.replacement actuals (scanArgument table limits supply level) c.hidden
        (steps + 1) <;> rfl

/-- A scan that carries out a call and ends has bound its arguments and filled in its replacement,
and ends with what is left of the text. -/
theorem exists_of_run_call {limits : Limits} {supply level steps : Nat}
    {out out' text : List Painted} {c : Call} (h : advance table out text = (out', .call c))
    {r : List Painted × Nat} (hrun : run table limits supply level steps out text = .ok r) :
    ∃ supply' actuals replaced, supply = supply' + 1 ∧ steps < limits.steps ∧
      c.definition.bind c.arguments = .ok actuals ∧
      c.definition.replacement actuals (scanArgument table limits supply' level) c.hidden
        (steps + 1) = .ok replaced ∧
      run table limits supply' level replaced.2 out'
        (Painted.respace c.token.spaced replaced.1 ++ c.rest) = .ok r := by
  have huncut : Uncut (run table limits supply level steps out text) := hrun ▸ uncut_ok r
  obtain ⟨hroom, supply', rfl⟩ := exists_room_of_uncut h huncut
  rw [run_of_call_eq_bind h hroom] at hrun
  cases hactuals : c.definition.bind c.arguments with
  | error e =>
      rw [hactuals] at hrun
      cases hrun
  | ok actuals =>
      simp only [hactuals, Except.bind] at hrun
      cases hreplaced : c.definition.replacement actuals (scanArgument table limits supply' level)
          c.hidden (steps + 1) with
      | error e =>
          rw [hreplaced] at hrun
          cases hrun
      | ok replaced =>
          rw [hreplaced] at hrun
          exact ⟨supply', actuals, replaced, rfl, hroom, rfl, hreplaced, hrun⟩

/-- Argument scans are raised when the scans one level deeper are. -/
theorem raises_scanArgument {limits limits' : Limits} {supply supply' level level' j k : Nat}
    (hdepth : limits.depth + level' ≤ limits'.depth + level)
    (h : ∀ argument steps, Parallel (resume [] j) (resume [] k)
      (run table limits supply (level + 1) (j + steps) [] argument)
      (run table limits' supply' (level' + 1) (k + steps) [] argument)) :
    Substitution.Raises j k (scanArgument table limits supply level)
      (scanArgument table limits' supply' level') := by
  intro argument steps
  unfold scanArgument
  by_cases hlevel : limits.depth ≤ level
  · rw [if_pos hlevel]
    intro huncut
    cases isLimit_eq_false_of_uncut huncut
  · rw [if_neg hlevel, if_neg (by omega)]
    exact h argument steps

/-- **Two scans of a text run side by side** if the second has at least as much room as the first
one, in invocations after those that each of them counted before and in depth. -/
theorem parallel_run {limits limits' : Limits} {supply supply' level level' j k : Nat}
    (hsteps : k + limits.steps ≤ j + limits'.steps)
    (hdepth : limits.depth + level' ≤ limits'.depth + level) (hsupply : supply ≤ supply')
    (steps : Nat) (out base base' text : List Painted) :
    Parallel (resume base.reverse j) (resume base'.reverse k)
      (run table limits supply level (j + steps) (out ++ base) text)
      (run table limits' supply' level' (k + steps) (out ++ base') text) := by
  -- The supply is the one thing that gets smaller in argument scans and in the rest of a scan.
  induction supply using Nat.strongRecOn generalizing supply' level level' steps out base base' text
    with
  | _ supply ih =>
      rcases hadvance : advance table out text with ⟨out', stop⟩
      have hbase : ∀ base, advance table (out ++ base) text = (out' ++ base, stop) := by
        intro base
        rw [advance_append, hadvance]
      cases stop with
      | finished =>
          rw [run_of_finished (hbase base), run_of_finished (hbase base'), List.reverse_append,
            List.reverse_append]
          exact .of_map (.ok (out'.reverse, steps))
      | unterminated d =>
          rw [run_of_unterminated (hbase base), run_of_unterminated (hbase base')]
          exact .of_map (.error (.unterminatedInvocation d.name))
      | call c =>
          refine .of_uncut fun huncut => ?_
          obtain ⟨hroom, supply, rfl⟩ := exists_room_of_uncut (hbase base) huncut
          obtain ⟨supply', rfl⟩ :=
            Nat.exists_eq_add_of_le' (Nat.le_trans (Nat.le_add_left 1 _) hsupply)
          have hsupply : supply ≤ supply' := Nat.le_of_add_le_add_right hsupply
          rw [run_of_call_eq_bind (hbase base) hroom,
            run_of_call_eq_bind (hbase base') (by omega)]
          have hraises := raises_scanArgument hdepth fun argument steps =>
            ih supply (Nat.lt_succ_self _) (by omega) hsupply steps [] [] [] argument
          refine (Parallel.refl _).bind fun actuals _ => ?_
          exact (Substitution.parallel_replacement hraises c.hidden (steps + 1)).bind fun r _ =>
            ih supply (Nat.lt_succ_self _) hdepth hsupply r.2 out' base base' _

/-- **Raised limits do not change a result.** -/
theorem run_eq_resumed {limits limits' : Limits} {supply supply' level level' steps k : Nat}
    (hsteps : k + limits.steps ≤ limits'.steps)
    (hdepth : limits.depth + level' ≤ limits'.depth + level) (hsupply : supply ≤ supply')
    {out : List Painted} (base : List Painted) {text : List Painted}
    (hrun : Uncut (run table limits supply level steps out text)) :
    run table limits' supply' level' (k + steps) (out ++ base) text =
      resumed base.reverse k (run table limits supply level steps out text) := by
  have hparallel : Parallel (resume [].reverse 0) (resume base.reverse k)
      (run table limits supply level (0 + steps) (out ++ []) text)
      (run table limits' supply' level' (k + steps) (out ++ base) text) :=
    parallel_run (by omega) hdepth hsupply steps out [] base text
  rw [Nat.zero_add, List.append_nil] at hparallel
  obtain ⟨r, hr, hr'⟩ := hparallel hrun
  have hr : run table limits supply level steps out text = r := hr.trans (resumed_nil_zero r)
  rw [hr', hr]
  rfl

/-- Under raised limits a scan that goes on from the same place has the same result. -/
theorem run_eq_of_le {limits limits' : Limits} {supply supply' level steps : Nat}
    (hsteps : limits.steps ≤ limits'.steps) (hdepth : limits.depth ≤ limits'.depth)
    (hsupply : supply ≤ supply') {out text : List Painted}
    (hrun : Uncut (run table limits supply level steps out text)) :
    run table limits' supply' level steps out text =
      run table limits supply level steps out text := by
  have hresumed : run table limits' supply' level (0 + steps) (out ++ []) text =
      resumed [] 0 (run table limits supply level steps out text) :=
    run_eq_resumed (by omega) (by omega) hsupply [] hrun
  rwa [Nat.zero_add, List.append_nil, resumed_nil_zero] at hresumed

/-- Under raised limits a scan resumes anywhere as it runs from the start. -/
theorem run_resume {limits limits' : Limits} {supply supply' level level' k : Nat}
    (hsteps : k + limits.steps ≤ limits'.steps)
    (hdepth : limits.depth + level' ≤ limits'.depth + level) (hsupply : supply ≤ supply')
    {text : List Painted} (hrun : Uncut (run table limits supply level 0 [] text))
    (done : List Painted) :
    run table limits' supply' level' k done text =
      resumed done.reverse k (run table limits supply level 0 [] text) :=
  run_eq_resumed hsteps hdepth hsupply done hrun

/-- Raised limits of its argument scans do not change a replacement. -/
theorem replacement_eq_of_le {limits limits' : Limits} {supply supply' level steps : Nat}
    (hsteps : limits.steps ≤ limits'.steps) (hdepth : limits.depth ≤ limits'.depth)
    (hsupply : supply ≤ supply') {d : Definition} {actuals : List (List Painted)}
    {hidden : HideSet}
    (hr : Uncut (d.replacement actuals (scanArgument table limits supply level) hidden steps)) :
    d.replacement actuals (scanArgument table limits' supply' level) hidden steps =
      d.replacement actuals (scanArgument table limits supply level) hidden steps := by
  have hraises : Substitution.Raises 0 0 (scanArgument table limits supply level)
      (scanArgument table limits' supply' level) :=
    raises_scanArgument (by omega) fun argument steps =>
      parallel_run (by omega) (by omega) hsupply steps [] [] [] argument
  have hparallel : Parallel (resume [] 0) (resume [] 0)
      (d.replacement actuals (scanArgument table limits supply level) hidden (0 + steps))
      (d.replacement actuals (scanArgument table limits' supply' level) hidden (0 + steps)) :=
    Substitution.parallel_replacement hraises hidden steps
  rw [Nat.zero_add] at hparallel
  obtain ⟨r, hr, hr'⟩ := hparallel hr
  exact hr'.trans hr.symm

end Scan

/-! ### Expansions -/

namespace MacroTable

/-- The expansion of a token list shows the result of its scan. -/
theorem expandTokens_eq_map (table : MacroTable) (limits : Limits) (tokens : List Token) :
    table.expandTokens limits tokens =
      (Scan.run table limits limits.steps 0 0 [] (tokens.map Painted.plain)).map fun r =>
        ⟨r.1.map Painted.toToken, r.2⟩ := by
  rw [expandTokens]
  cases Scan.run table limits limits.steps 0 0 [] (tokens.map Painted.plain) <;> rfl

theorem expand_of_lex {table : MacroTable} {limits : Limits} {text : String} {tokens : List Token}
    (h : Token.lex text = .ok tokens) :
    table.expand limits text = table.expandTokens limits tokens := by
  rw [expand, h]

/-- A text that is expanded is read as tokens whose scan ends. -/
theorem exists_of_expand {table : MacroTable} {limits : Limits} {text : String} {e : Expansion}
    (h : table.expand limits text = .ok e) :
    ∃ tokens r, Token.lex text = .ok tokens ∧
      Scan.run table limits limits.steps 0 0 [] (tokens.map Painted.plain) = .ok r ∧
      e = ⟨r.1.map Painted.toToken, r.2⟩ := by
  cases hlex : Token.lex text with
  | error fault =>
      rw [expand, hlex] at h
      cases h
  | ok tokens =>
      rw [expand_of_lex hlex, expandTokens_eq_map] at h
      cases hrun : Scan.run table limits limits.steps 0 0 [] (tokens.map Painted.plain) with
      | error fault =>
          rw [hrun] at h
          cases h
      | ok r =>
          rw [hrun] at h
          cases h
          exact ⟨tokens, r, rfl, hrun, rfl⟩

/-- **Limits only cut a result and never change it**: an expansion that is not cut short has the
same tokens and counts the same invocations, or fails for the same cause, under all higher
limits. -/
theorem expand_eq_of_le (table : MacroTable) (text : String) {limits limits' : Limits}
    (hsteps : limits.steps ≤ limits'.steps) (hdepth : limits.depth ≤ limits'.depth)
    (hstep : ∀ limit, table.expand limits text ≠ .error (.stepLimit limit))
    (hnested : ∀ limit, table.expand limits text ≠ .error (.depthLimit limit)) :
    table.expand limits' text = table.expand limits text := by
  have huncut : Scan.Uncut (table.expand limits text) := Scan.uncut_iff.2 ⟨hstep, hnested⟩
  cases hlex : Token.lex text with
  | error e => rw [expand, expand, hlex]
  | ok tokens =>
      rw [expand_of_lex hlex, expandTokens_eq_map] at huncut ⊢
      rw [expand_of_lex hlex, expandTokens_eq_map]
      rw [Scan.run_eq_of_le hsteps hdepth hsteps (Scan.uncut_of_map huncut)]

/-- Two nested calls and one with too many arguments, which just fit in the lower limits. -/
theorem expand_eq_of_le_nested :
    ∃ table : MacroTable, table["F"]? = some ⟨"F", some ["x"], false, [.name "x"]⟩ ∧
      table.expand ⟨3, 2⟩ "F(F(1)) F(,)" = .error (.argumentCount "F" (.exactly 1) 2) ∧
      table.expand ⟨1000, 256⟩ "F(F(1)) F(,)" = .error (.argumentCount "F" (.exactly 1) 2) := by
  refine ⟨MacroTable.empty.define ⟨"F", some ["x"], false, [.name "x"]⟩, ?_, ?_⟩
  · simp [getElem?_define]
  · have hlower : (MacroTable.empty.define ⟨"F", some ["x"], false, [.name "x"]⟩).expand ⟨3, 2⟩
        "F(F(1)) F(,)" = .error (.argumentCount "F" (.exactly 1) 2) := by cbv
    have hraised := expand_eq_of_le (MacroTable.empty.define ⟨"F", some ["x"], false, [.name "x"]⟩)
      "F(F(1)) F(,)" (show (⟨3, 2⟩ : Limits).steps ≤ (⟨1000, 256⟩ : Limits).steps by decide)
      (by decide) (by simp [hlower]) (by simp [hlower])
    exact ⟨hlower, hraised.trans hlower⟩

end MacroTable

end VariadicMacros
