/-
**Deferral.**

The deferral of level `k` leaves a name behind `k` markers that expand to nothing, each with a pair
of parentheses after all of them.  A scan passes over the name and over every marker but the last,
since none of these has a parenthesis after it, and calls the last one, which takes one pair away.
So every scan brings the name one step closer to its argument list, and no scan ever hides a marker
or the name: nothing comes of a marker that could carry a hide set.

Main definitions:

* `VariadicMacros.Header.deferFirst`, `VariadicMacros.Header.deferNext`,
  `VariadicMacros.Header.eval` — the macros that defer, and the one that scans again;
* `VariadicMacros.Header.deferred` — a call that some number of scans have to go before;
* `VariadicMacros.Header.DeferralOf` — the ways to write a deferral of a level.

Main results:

* `VariadicMacros.Header.exists_rewrites_level` — a level unfolds to as many markers;
* `VariadicMacros.Header.yields_unmarked` — **a scan takes one marker away**;
* `VariadicMacros.Header.expandsTo_deferral` — **a deferral fires on exactly the rescan of its
  level**.
-/

import VariadicMacros.Proofs.Dispatch

set_option autoImplicit false

namespace VariadicMacros

open Painted (Shows)
open Token (name number mark)

namespace Header

/-! ### The macros -/

/-- The marker, which expands to nothing. -/
def empty (o : Options) : Definition := function (o.name "EMPTY") [] false []

/-- A deferral of the first level, by either of its names. -/
def deferFirst (o : Options) (suffix : String) : Definition :=
  function (o.name suffix) [] true (deferOnce o)

/-- The deferral of the level after the given one. -/
def deferNext (o : Options) (level : Nat) : Definition :=
  function (o.name ("DEFER_" ++ toString (level + 1))) [] true
    (tightCall (o.name ("DEFER_" ++ toString level))
        [[ellipsisArguments, (name (o.name "EMPTY")).afterSpace]] ++
      parenthesized [])

/-- Defers by a number. -/
def deferNumber (o : Options) : Definition :=
  function (o.name "DEFER_N") ["n"] true
    (looseCall (o.name "CONCAT") [[name (o.name "DEFER_")], [name "n"]] ++
      parenthesized [ellipsisArguments])

/-- Scans its arguments once more. -/
def eval (o : Options) : Definition := function (o.name "EVAL") [] true [ellipsisArguments]

theorem empty_mem (o : Options) : empty o ∈ macros o :=
  mem_macros .deferral (by simp [Family.blocks, deferral, variadic, fixed, empty, Line.blank])

theorem deferFirst_mem (o : Options) : deferFirst o "DEFER" ∈ macros o :=
  mem_macros .deferral (by simp [Family.blocks, deferral, variadic, fixed, deferFirst, Line.blank])

theorem deferFirst_one_mem (o : Options) : deferFirst o "DEFER_1" ∈ macros o :=
  mem_macros .deferral (by simp [Family.blocks, deferral, variadic, fixed, deferFirst, Line.blank])

theorem deferNext_mem {o : Options} {level : Nat} (hpos : 1 ≤ level)
    (hlevel : level + 1 ≤ o.deferLevels) : deferNext o level ∈ macros o := by
  have hentry : (deferLevel o (level + 1)).definition? = some (deferNext o level) := rfl
  exact mem_macros_table .deferral 2 (o.deferLevels - 1) (by simp [Family.blocks, deferral])
    (by omega) (by omega) hentry

theorem deferNumber_mem (o : Options) : deferNumber o ∈ macros o :=
  mem_macros .deferral (by simp [Family.blocks, deferral, variadic, fixed, deferNumber, Line.blank])

theorem eval_mem (o : Options) : eval o ∈ macros o :=
  mem_macros .deferral (by simp [Family.blocks, deferral, variadic, fixed, eval, Line.blank])

section Filled

variable {o : Options}

theorem filled_deferFirst {suffix : String} (v : List Word) :
    (deferFirst o suffix).filled [v] = v ++ .name (o.name "EMPTY") :: Word.parens [] := by
  simp (disch := decide) [deferFirst, deferOnce]
  rfl

theorem filled_deferNext (level : Nat) (v : List Word) :
    (deferNext o level).filled [v] = Word.call (o.name ("DEFER_" ++ toString level))
      [v ++ [.name (o.name "EMPTY")]] ++ Word.parens [] := by
  have hlevel : ∀ p ∈ [variadicName], ¬ ("DEFER_" ++ toString level).toList <:+ p.toList := by
    simpa using not_suffix_of_isDigit (p := variadicName) (by decide) "DEFER_" level
  simp (disch := decide) [deferNext, filling_function_macro hlevel, -Nat.toString_eq_repr]
  rfl

theorem filled_deferNumber (n v : List Word) :
    (deferNumber o).filled [n, v] =
      Word.call (o.name "CONCAT") [[.name (o.name "DEFER_")], n] ++ Word.parens [v] := by
  simp (disch := decide) [deferNumber, Word.call, Word.parens]
  rfl

theorem filled_eval (v : List Word) : (eval o).filled [v] = v := by
  simp (disch := decide) [eval]
  rfl

end Filled

/-! ### Markers -/

/-- A name with some number of markers behind it. -/
def marked (o : Options) (f : String) (count : Nat) : List Word :=
  .name f :: List.replicate count (.name (o.name "EMPTY"))

/-- Some number of pairs of parentheses. -/
def emptyParens (count : Nat) : List Word := (List.replicate count (Word.parens [])).flatten

/-- A call that some number of scans have to go before. -/
def deferred (o : Options) (f : String) (count : Nat) (arguments : List (List Word)) : List Word :=
  marked o f count ++ emptyParens count ++ Word.parens arguments

theorem marked_eq_map (o : Options) (f : String) (count : Nat) :
    marked o f count = (f :: List.replicate count (o.name "EMPTY")).map Word.name := by
  simp [marked]

/-- One more marker stands at the end. -/
theorem marked_succ (o : Options) (f : String) (count : Nat) :
    marked o f (count + 1) = marked o f count ++ [.name (o.name "EMPTY")] := by
  rw [marked, List.replicate_succ']
  rfl

theorem emptyParens_succ (count : Nat) :
    emptyParens (count + 1) = Word.parens [] ++ emptyParens count := by
  rw [emptyParens, List.replicate_succ, List.flatten_cons]
  rfl

/-- One more pair may as well stand at the end. -/
theorem emptyParens_succ' (count : Nat) :
    emptyParens (count + 1) = emptyParens count ++ Word.parens [] := by
  rw [emptyParens, List.replicate_succ', List.flatten_append]
  simp [emptyParens]

/-- The last marker stands in front of the first pair of parentheses. -/
theorem deferred_succ (o : Options) (f : String) (count : Nat) (arguments : List (List Word)) :
    deferred o f (count + 1) arguments = marked o f count ++ (Word.call (o.name "EMPTY") [[]] ++
      (emptyParens count ++ Word.parens arguments)) := by
  rw [deferred, marked_succ, emptyParens_succ]
  simp [Word.call, Word.parens]

theorem isArgument_marked (o : Options) (f : String) (count : Nat) :
    Word.IsArgument (marked o f count) := by
  induction count with
  | zero => exact Word.isArgument_name f
  | succ count ih =>
      rw [marked_succ]
      exact ih.append (Word.isArgument_name _)

section Markers

variable {o : Options} {table : MacroTable} {f : String}

/-- Neither the name nor a marker is called in front of a marker. -/
theorem forall_isCallable_marked (htable : Installed o table) (hf : Scan.IsCallable table f)
    (count : Nat) :
    ∀ n ∈ f :: List.replicate count (o.name "EMPTY"), Scan.IsCallable table n := by
  intro n hn
  rcases List.mem_cons.1 hn with rfl | hn
  · exact hf
  · rw [List.eq_of_mem_replicate hn]
    exact htable.isCallable (empty_mem o) rfl

theorem passes_marked (htable : Installed o table) (hf : Scan.IsCallable table f) (count : Nat) :
    Scan.Passes table (marked o f count) :=
  marked_eq_map o f count ▸ .of_names (forall_isCallable_marked htable hf count)

theorem ignores_emptyParens (count : Nat) : table.Ignores (emptyParens count) := by
  induction count with
  | zero => exact .nil
  | succ count ih =>
      rw [emptyParens_succ]
      exact (MacroTable.Ignores.parens (by simp)).append ih

/-- **A scan takes one marker away**, with the first pair of parentheses. -/
theorem yields_unmarked (htable : Installed o table) (hf : Scan.IsCallable table f) {count : Nat}
    {arguments : List (List Word)} (hignores : ∀ a ∈ arguments, table.Ignores a)
    {endings : List String} (hfree : "EMPTY" ∉ endings) (depth : Nat) :
    Scan.Yields table (depth + 1) 1 (endings.map o.name) (deferred o f (count + 1) arguments)
      (endings.map o.name) (deferred o f count arguments) := by
  intro ps hps
  rw [deferred_succ] at hps
  obtain ⟨names, ps, rfl, hnames, hps⟩ := hps.exists_append
  obtain ⟨marker, rest, rfl, hmarker, hrest⟩ := hps.exists_append
  have hslots : Scan.Prepares table depth (endings.map o.name) (endings.map o.name) 0
      ((empty o).slots [[]]) [] := .nil
  obtain ⟨qs, hqs, hcall⟩ := exists_rewrites_macro depth htable (empty_mem o) rfl rfl rfl hfree
    (List.Subset.refl _) rfl (by decide) hmarker hslots
  obtain rfl : qs = [] := hqs.eq_nil
  have hcall : Scan.Rewrites table (depth + 1) 1 marker [] [] := hcall
  -- Up to the last marker every name stands in front of a marker and is passed over.
  have hpassed : Scan.Reaches table (depth + 1) 0 (names ++ (marker ++ rest)) names
      (marker ++ rest) := by
    refine (Scan.Reaches.uncalled_append (forall_isCallable_marked htable hf count)
      (hnames.words.trans (marked_eq_map o f count)) ?_).mono (Nat.zero_le _) (Nat.le_refl _)
    obtain ⟨p, ps, rfl, hp, -, -⟩ := hmarker.exists_cons
    intro q hq
    obtain rfl : p = q := by simpa using hq
    rw [Painted.isMark_eq, hp]
    rfl
  have hdone : Scan.Rewrites table (depth + 1) 0 rest rest [] :=
    .of_ignores (hrest.words ▸ (ignores_emptyParens count).append (.parens hignores))
  refine ⟨names ++ rest, ?_, ?_⟩
  · rw [deferred, List.append_assoc]
    exact hnames.append hrest
  · have hreaches := hpassed.trans ((hcall.append hdone).reaches)
    rwa [Nat.zero_add] at hreaches

end Markers

/-! ### Levels -/

section Levels

variable {o : Options} {table : MacroTable} {f : String} {endings : List String}

theorem numberedSuffixes_succ (stem : String) (first count : Nat) :
    numberedSuffixes stem first (count + 1) =
      numberedSuffixes stem first count ++ [stem ++ toString (first + count)] := by
  rw [numberedSuffixes, List.range'_concat, List.map_append]
  simp [numberedSuffixes]

/-- A deferral of the first level puts one marker behind its argument. -/
theorem exists_rewrites_deferFirst (depth count : Nat) (htable : Installed o table)
    (hf : Scan.IsCallable table f)
    {suffix : String} (hmem : deferFirst o suffix ∈ macros o) (hfree : suffix ∉ endings)
    {ps : List Painted} (hps : Shows (endings.map o.name) ps
      (Word.call (o.name suffix) [marked o f count])) :
    ∃ qs, Shows ((suffix :: endings).map o.name) qs (marked o f (count + 1) ++ emptyParens 1) ∧
      Scan.Rewrites table (depth + 1) 1 ps [] qs := by
  obtain ⟨qs, hqs, hcall⟩ := exists_rewrites_macro depth htable hmem rfl rfl rfl hfree
    (List.Subset.refl _) rfl (by simpa using isArgument_marked o f count) hps
    (.singleton (.of_passes (passes_marked htable hf count) (List.Subset.refl _)))
  have hwords : marked o f (count + 1) ++ emptyParens 1 =
      marked o f count ++ .name (o.name "EMPTY") :: Word.parens [] := by
    rw [marked_succ, List.append_assoc]
    rfl
  rw [filled_deferFirst, ← hwords] at hqs
  exact ⟨qs, hqs, hcall⟩

/-- **A level unfolds to as many markers**, and as many pairs of parentheses. -/
theorem exists_rewrites_level (depth count : Nat) (htable : Installed o table)
    (hf : Scan.IsCallable table f) {level : Nat} (hpos : 1 ≤ level) (hle : level ≤ o.deferLevels)
    (hfree : ∀ j ≤ level, "DEFER_" ++ toString j ∉ endings) {ps : List Painted}
    (hps : Shows (endings.map o.name) ps
      (Word.call (o.name ("DEFER_" ++ toString level)) [marked o f count])) :
    ∃ qs, Shows ((numberedSuffixes "DEFER_" 1 level ++ endings).map o.name) qs
        (marked o f (count + level) ++ emptyParens level) ∧
      Scan.Rewrites table (depth + 1) level ps [] qs := by
  -- A level hands one more marker to the level below it, so their count is generalized.
  induction level, hpos using Nat.le_induction generalizing endings count ps with
  | base =>
      exact exists_rewrites_deferFirst depth count htable hf (deferFirst_one_mem o)
        (hfree 1 (Nat.le_refl _)) hps
  | succ level hpos ih =>
      have hlevel : "DEFER_" ++ toString (level + 1) ∉ endings := hfree _ (Nat.le_refl _)
      obtain ⟨qs, hqs, hcall⟩ := exists_rewrites_macro depth htable
        (deferNext_mem hpos hle) rfl rfl rfl hlevel (List.Subset.refl _) rfl
        (by simpa using isArgument_marked o f count) hps
        (.singleton (.of_passes (passes_marked htable hf count) (List.Subset.refl _)))
      rw [filled_deferNext, ← marked_succ] at hqs
      obtain ⟨as, bs, rfl, has, hbs⟩ := hqs.exists_append
      have hfree' : ∀ j ≤ level, "DEFER_" ++ toString j ∉
          ("DEFER_" ++ toString (level + 1)) :: endings := by
        intro j hj hmem
        rcases List.mem_cons.1 hmem with heq | hmem
        · have hjlevel := (numbered_inj (by decide) (by decide) heq).2
          omega
        · exact hfree j (by omega) hmem
      obtain ⟨rs, hrs, hrest⟩ := ih (count + 1) (by omega) hfree' has
      have hendings : numberedSuffixes "DEFER_" 1 (level + 1) ++ endings =
          numberedSuffixes "DEFER_" 1 level ++
            ("DEFER_" ++ toString (level + 1)) :: endings := by
        rw [numberedSuffixes_succ, Nat.add_comm 1 level]
        simp
      have hwords : marked o f (count + (level + 1)) ++ emptyParens (level + 1) =
          marked o f (count + 1 + level) ++ emptyParens level ++ Word.parens [] := by
        rw [emptyParens_succ', ← List.append_assoc, Nat.add_right_comm count 1 level,
          Nat.add_assoc]
      rw [hendings, hwords]
      have hparens := hbs.mono (List.map_subset o.name
        (List.subset_append_right (numberedSuffixes "DEFER_" 1 level) _))
      refine ⟨rs ++ bs, hrs.append hparens, ?_⟩
      exact (hcall.trans (hrest.append_right bs)).mono (Nat.le_refl _) (by omega)

end Levels

/-- The ways to write a deferral of a level: with the macro of the level, with the macro of the
first level, and with the level as a number. -/
inductive DeferralOf (o : Options) (f : String) : Nat → List Word → Prop
  | level (level : Nat) :
      DeferralOf o f level (Word.call (o.name ("DEFER_" ++ toString level)) [[.name f]])
  | once : DeferralOf o f 1 (Word.call (o.name "DEFER") [[.name f]])
  | number (level : Nat) :
      DeferralOf o f level (Word.call (o.name "DEFER_N") [[.number (toString level)], [.name f]])

theorem DeferralOf.isArgument {o : Options} {f : String} {level : Nat} {head : List Word}
    (h : DeferralOf o f level head) : Word.IsArgument head := by
  have hname : ∀ a ∈ [[Word.name f]], Word.IsArgument a := by simpa using Word.isArgument_name f
  cases h with
  | level => exact Word.isArgument_call _ hname
  | once => exact Word.isArgument_call _ hname
  | number =>
      exact Word.isArgument_call _ (List.forall_mem_cons.2 ⟨Word.isArgument_number _, hname⟩)

/-- The endings of all macros but the marker. -/
def visibleSuffixes (o : Options) : List String := (suffixes o).filter (· ≠ "EMPTY")

section Unfolding

variable {o : Options} {table : MacroTable} {f : String} {level : Nat}

theorem plain_mem_visibleSuffixes {s : String} (h : s ∈ plainSuffixes) (hne : s ≠ "EMPTY") :
    s ∈ visibleSuffixes o :=
  List.mem_filter.2 ⟨plain_mem_suffixes h o, by simpa using hne⟩

theorem numberedSuffixes_subset (hle : level ≤ o.deferLevels) :
    numberedSuffixes "DEFER_" 1 level ⊆ visibleSuffixes o := by
  intro s hs
  obtain ⟨n, hn, rfl⟩ := List.mem_map.1 hs
  have hrange := List.mem_range'_1.1 hn
  have hmem : "DEFER_" ++ toString n ∈ numberedSuffixes "DEFER_" 1 o.deferLevels :=
    List.mem_map_of_mem (List.mem_range'_1.2 (by omega))
  have hsuffix : "DEFER_" ++ toString n ∈ suffixes o := by
    simp only [suffixes, List.mem_append, hmem, or_true, true_or]
  have hne : "DEFER_" ++ toString n ≠ "EMPTY" := by
    intro heq
    exact numbered_notMem_plainSuffixes (show "DEFER_" ∈ dispatchStems by decide) n
      (heq ▸ (by decide : "EMPTY" ∈ plainSuffixes))
  exact List.mem_filter.2 ⟨hsuffix, by simpa using hne⟩

/-- However it is written, a deferral unfolds to as many markers as its level. -/
theorem DeferralOf.exists_rewrites {head : List Word} (h : DeferralOf o f level head)
    (ho : o.check = .ok ()) (htable : Installed o table)
    (hcallable : Scan.IsCallable table (o.name "DEFER_")) (hf : Scan.IsCallable table f)
    (hpos : 1 ≤ level) (hle : level ≤ o.deferLevels) (depth : Nat) {ps : List Painted}
    (hps : Shows ([].map o.name) ps head) :
    ∃ qs, Shows ((visibleSuffixes o).map o.name) qs (marked o f level ++ emptyParens level) ∧
      Scan.Rewrites table (depth + 1) (level + 3) ps [] qs := by
  have hlevels := numberedSuffixes_subset hle
  cases h with
  | level =>
      obtain ⟨qs, hqs, hrewrites⟩ :=
        exists_rewrites_level depth 0 htable hf hpos hle (fun _ _ => List.not_mem_nil) hps
      rw [Nat.zero_add, List.append_nil] at hqs
      exact ⟨qs, hqs.mono (List.map_subset _ hlevels),
        hrewrites.mono (Nat.le_refl _) (by omega)⟩
  | once =>
      obtain ⟨qs, hqs, hrewrites⟩ :=
        exists_rewrites_deferFirst depth 0 htable hf (deferFirst_mem o) List.not_mem_nil hps
      have hmem : "DEFER" ∈ visibleSuffixes o := plain_mem_visibleSuffixes (by decide) (by decide)
      exact ⟨qs, hqs.mono (List.map_subset _ (List.cons_subset.2 ⟨hmem, List.nil_subset _⟩)),
        hrewrites.mono (Nat.le_refl _) (by omega)⟩
  | number =>
      have hname := Word.isArgument_name f
      obtain ⟨qs, hqs, hcall⟩ := exists_rewrites_macro depth htable (deferNumber_mem o) rfl rfl rfl
        List.not_mem_nil (List.Subset.refl _) rfl
        (by simpa using ⟨Word.isArgument_number _, hname⟩) hps
        (.cons (.of_ignores (.number _) (List.Subset.refl _))
          (.singleton (.of_passes (.of_isCallable hf) (List.Subset.refl _))))
      rw [filled_deferNumber] at hqs
      obtain ⟨rs, hrs, hpasted⟩ :=
        exists_rewrites_pasted depth ho htable (by decide) hcallable (by decide) (by decide) hqs
      have hfree : ∀ j ≤ level, "DEFER_" ++ toString j ∉ ["CONCAT_IMPL", "CONCAT", "DEFER_N"] :=
        fun j _ => numbered_notMem (by decide) j (by decide)
      obtain ⟨ts, hts, hlevel⟩ := exists_rewrites_level depth 0 htable hf hpos hle hfree hrs
      rw [Nat.zero_add] at hts
      have hsub : numberedSuffixes "DEFER_" 1 level ++ ["CONCAT_IMPL", "CONCAT", "DEFER_N"] ⊆
          visibleSuffixes o := by
        refine List.append_subset.2 ⟨hlevels, fun s hs => ?_⟩
        have hall : ∀ s ∈ ["CONCAT_IMPL", "CONCAT", "DEFER_N"],
            s ∈ plainSuffixes ∧ s ≠ "EMPTY" := by decide
        exact plain_mem_visibleSuffixes (hall s hs).1 (hall s hs).2
      exact ⟨ts, hts.mono (List.map_subset _ hsub),
        ((hcall.trans hpasted).trans hlevel).mono (Nat.le_refl _) (by omega)⟩

end Unfolding

/-! ### Scanning again -/

/-- Some number of forced rescans around words. -/
def evals (o : Options) : Nat → List Word → List Word
  | 0, ws => ws
  | count + 1, ws => Word.call (o.name "EVAL") [evals o count ws]

theorem isArgument_evals (o : Options) {ws : List Word} (h : Word.IsArgument ws) (count : Nat) :
    Word.IsArgument (evals o count ws) := by
  induction count with
  | zero => exact h
  | succ count ih => exact Word.isArgument_call _ (by simpa using ih)

section Rescans

variable {o : Options} {table : MacroTable} {f : String} {level : Nat} {head : List Word}
  {arguments : List (List Word)}

/-- What an argument is scanned into is scanned once more. -/
theorem yields_eval (htable : Installed o table) {ws mid result : List Word}
    {hidden hidden' : List String} {depth cost cost' : Nat} (hargument : Word.IsArgument ws)
    (h : Scan.Yields table depth cost [] ws hidden mid)
    (h' : Scan.Yields table (depth + 1) cost' (o.name "EVAL" :: hidden) mid hidden' result) :
    Scan.Yields table (depth + 1) (cost + 1 + cost') [] (Word.call (o.name "EVAL") [ws]) hidden'
      result := by
  intro ps hps
  obtain ⟨p, ps, rfl, hp, hhidden, hps⟩ := hps.exists_cons
  have hfree : o.name "EVAL" ∉ p.hidden := fun hmem => absurd (hhidden hmem) (List.not_mem_nil)
  obtain ⟨qs, hqs, hcall⟩ := Scan.exists_rewrites_call depth (htable _ (eval_mem o)) rfl rfl hp
    hfree rfl (by simpa using hargument) (List.nil_subset _) hps (.singleton h)
  rw [filled_eval] at hqs
  obtain ⟨rs, hrs, hreaches⟩ := h' qs hqs
  exact ⟨rs, hrs, hcall.reaches.trans hreaches⟩

/-- **Before the rescan of its level** a deferral leaves its call behind the markers that are not
used up. -/
theorem yields_evals_deferred (ho : o.check = .ok ()) (htable : Installed o table)
    (hcallable : Scan.IsCallable table (o.name "DEFER_")) (hf : Scan.IsCallable table f)
    (hhead : DeferralOf o f level head) (hle : level ≤ o.deferLevels)
    (hargument : ∀ a ∈ arguments, Word.IsArgument a) (hignores : ∀ a ∈ arguments, table.Ignores a)
    {rescans count : Nat} (hlevel : level = rescans + 1 + count) :
    Scan.Yields table (rescans + 1) (level + 4 + 2 * rescans) []
      (evals o rescans (head ++ Word.parens arguments)) ((visibleSuffixes o).map o.name)
      (deferred o f count arguments) := by
  have hfree : "EMPTY" ∉ visibleSuffixes o := fun hmem => by simpa using (List.mem_filter.1 hmem).2
  -- Every rescan scans its argument first, which was scanned once less, and takes a marker away.
  induction rescans generalizing count with
  | zero =>
      have hcount : level = count + 1 := by omega
      intro ps hps
      obtain ⟨as, bs, rfl, has, hbs⟩ := hps.exists_append
      obtain ⟨qs, hqs, hunfold⟩ := hhead.exists_rewrites ho htable hcallable hf (by omega) hle 0 has
      have hdeferred := hqs.append (hbs.mono (List.nil_subset _))
      rw [hcount] at hdeferred
      obtain ⟨rs, hrs, hreaches⟩ := yields_unmarked htable hf hignores hfree 0 _ hdeferred
      exact ⟨rs, hrs, (hunfold bs).trans hreaches⟩
  | succ rescans ih =>
      have hshift : level = rescans + 1 + (count + 1) := by omega
      have hscan := ih hshift
      have heval : o.name "EVAL" ∈ (visibleSuffixes o).map o.name :=
        List.mem_map_of_mem (plain_mem_visibleSuffixes (by decide) (by decide))
      have hrescan : Scan.Yields table (rescans + 1 + 1) 1
          (o.name "EVAL" :: (visibleSuffixes o).map o.name) (deferred o f (count + 1) arguments)
          ((visibleSuffixes o).map o.name) (deferred o f count arguments) := by
        intro ps hps
        exact yields_unmarked htable hf hignores hfree (rescans + 1) ps
          (hps.mono (List.cons_subset.2 ⟨heval, List.Subset.refl _⟩))
      have hargument' := isArgument_evals o
        (hhead.isArgument.append (Word.isArgument_parens hargument)) rescans
      exact (yields_eval htable hargument' hscan hrescan).mono (Nat.le_refl _) (by omega)

/-- **From the rescan of its level on** a deferral is what the call alone is. -/
theorem exists_yields_evals_fired (ho : o.check = .ok ()) (htable : Installed o table)
    (hcallable : Scan.IsCallable table (o.name "DEFER_")) {d : Definition} (hd : IsAdded o table d)
    (hhead : DeferralOf o d.name level head) (hpos : 1 ≤ level) (hle : level ≤ o.deferLevels)
    (htakes : d.takes arguments = true) (hargument : ∀ a ∈ arguments, Word.IsArgument a)
    (hignores : ∀ a ∈ arguments, (table.define d).Ignores a) (more : Nat) :
    ∃ hidden, Scan.Yields (table.define d) (level + more + 1) (3 * level + 4 + more) []
      (evals o (level + more) (head ++ Word.parens arguments)) hidden
      (d.filled (d.slots arguments)) := by
  have htable' := htable.define hd.fresh
  have hargument' := isArgument_evals o
    (hhead.isArgument.append (Word.isArgument_parens hargument))
  -- The rescan of the level is the first to find the call, and later ones find its result.
  induction more with
  | zero =>
      obtain ⟨rescans, rfl⟩ := Nat.exists_eq_add_of_le' hpos
      have hscan := yields_evals_deferred ho htable' (hd.isCallable_define hcallable) hd.isCallable
        hhead hle hargument hignores (show rescans + 1 = rescans + 1 + 0 from rfl)
      have hvisible : "EVAL" :: visibleSuffixes o ⊆ suffixes o :=
        List.cons_subset.2 ⟨plain_mem_suffixes (by decide) o, fun _ hs => (List.mem_filter.1 hs).1⟩
      have hcall := hd.yields_call (rescans + 1) hvisible htakes hargument hignores
      refine ⟨_, (yields_eval htable' (hargument' rescans) hscan hcall).mono (Nat.le_refl _) ?_⟩
      omega
  | succ more ih =>
      obtain ⟨hidden, hscan⟩ := ih
      have hdone : Scan.Yields (table.define d) (level + more + 1 + 1) 0 (o.name "EVAL" :: hidden)
          (d.filled (d.slots arguments)) _ (d.filled (d.slots arguments)) :=
        .of_ignores (hd.ignores_filled hignores) (List.Subset.refl _)
      refine ⟨_, (yields_eval htable' (hargument' (level + more)) hscan hdone).mono
        (Nat.le_refl _) ?_⟩
      omega

end Rescans

/-- **A deferral fires on exactly the rescan of its level**: before that its call stays behind the
markers and the pairs of parentheses that are not used up, and from then on it is what the call
alone expands to. -/
theorem expandsTo_deferral {o : Options} (ho : o.check = .ok ()) (time : Timestamp)
    (hguard : ¬ (o.name "DEFER_").toList <+: o.guard.toList) :
    ∃ table, table? o time = some table ∧
      ∀ d : Definition, IsAdded o table d →
      ∀ arguments : List (List Word), d.takes arguments = true →
        (∀ a ∈ arguments, Word.IsArgument a ∧ (table.define d).Ignores a) →
      ∀ (level : Nat) (head : List Word), 1 ≤ level → level ≤ o.deferLevels →
        DeferralOf o d.name level head →
      ∀ (rescans : Nat) (limits : Limits), rescans + 2 ≤ limits.depth →
        2 * level + rescans + 8 ≤ limits.steps →
        (table.define d).ExpandsTo limits (Word.call d.name arguments)
          (d.filled (d.slots arguments)) ∧
        (table.define d).ExpandsTo limits (evals o rescans (head ++ Word.parens arguments))
          (if rescans < level then deferred o d.name (level - 1 - rescans) arguments
            else d.filled (d.slots arguments)) := by
  obtain ⟨table, htable⟩ : ∃ table, table? o time = some table := ⟨_, table?_eq ho time⟩
  have hinstalled := installed_table ho htable
  have hcallable := isCallable_stem ho htable (by decide) hguard
  refine ⟨table, htable, ?_⟩
  intro d hd arguments htakes harguments level head hpos hle hhead rescans limits hdepth hsteps
  have hargument : ∀ a ∈ arguments, Word.IsArgument a := fun a ha => (harguments a ha).1
  have hignores : ∀ a ∈ arguments, (table.define d).Ignores a := fun a ha => (harguments a ha).2
  refine ⟨?_, ?_⟩
  · have hcall := hd.yields_call 0 (List.nil_subset _) htakes hargument hignores
    exact hcall.expandsTo (by omega) (by omega)
  · split
    · next hrescans =>
      have hcount : level = rescans + 1 + (level - 1 - rescans) := by omega
      have hyields := yields_evals_deferred ho (hinstalled.define hd.fresh)
        (hd.isCallable_define hcallable) hd.isCallable hhead hle hargument hignores hcount
      exact hyields.expandsTo (by omega) (by omega)
    · next hrescans =>
      obtain ⟨more, rfl⟩ := Nat.exists_eq_add_of_le (Nat.le_of_not_lt hrescans)
      obtain ⟨hidden, hyields⟩ := exists_yields_evals_fired ho hinstalled hcallable hd hhead hpos
        hle htakes hargument hignores more
      exact hyields.expandsTo (by omega) (by omega)

/-- Without a rescan a call of the second level stays behind one marker, and after two rescans
it has fired, within tight limits. -/
theorem expandsTo_deferral_two :
    ∃ table, table? { bound := 3 } ⟨2024, 1, 1, 0, 0, 0, 0⟩ = some table ∧
      (∃ e, (table.define (function "F" [] false [name "called"])).expand
          { steps := 12, depth := 2 } "ZEN_DEFER_2(F)()" = .ok e ∧
        e.tokens.map Token.word = [.name "F", .name "ZEN_EMPTY", .mark "(", .mark ")",
          .mark "(", .mark ")"]) ∧
      ∃ e, (table.define (function "F" [] false [name "called"])).expand
          { steps := 14, depth := 4 } "ZEN_EVAL(ZEN_EVAL(ZEN_DEFER_N(2, F)()))" = .ok e ∧
        e.tokens.map Token.word = [.name "called"] := by
  have ho : Options.check { bound := 3 } = .ok () := by decide
  obtain ⟨table, htable, hdeferral⟩ :=
    expandsTo_deferral ho ⟨2024, 1, 1, 0, 0, 0, 0⟩ (by decide)
  have hbody : (table.define (function "F" [] false [name "called"]))["called"]? = none := by
    rw [MacroTable.getElem?_define]
    exact (if_neg (by decide)).trans (getElem?_of_foreign ho htable (by decide) (by decide))
  have hadded : IsAdded { bound := 3 } table (function "F" [] false [name "called"]) := by
    refine ⟨rfl, rfl, notMem_of_foreign (by decide), fun t ht _ _ => ?_⟩
    rw [List.mem_singleton.1 ht]
    exact hbody
  have harguments : ∀ a ∈ [([] : List Word)], Word.IsArgument a ∧
      (table.define (function "F" [] false [name "called"])).Ignores a := by
    intro a ha
    rw [List.mem_singleton.1 ha]
    exact ⟨rfl, .nil⟩
  refine ⟨table, htable, ?_, ?_⟩
  · have hlex : Token.lex "ZEN_DEFER_2(F)()" = .ok
        [name "ZEN_DEFER_2", mark "(", name "F", mark ")", mark "(", mark ")"] := by
      cbv
    exact (hdeferral _ hadded [[]] rfl harguments 2 _ (by decide) (by decide) (.level 2) 0
      { steps := 12, depth := 2 } (by decide) (by decide)).2 _ _ hlex rfl
  · have hlex : Token.lex "ZEN_EVAL(ZEN_EVAL(ZEN_DEFER_N(2, F)()))" = .ok
        [name "ZEN_EVAL", mark "(", name "ZEN_EVAL", mark "(", name "ZEN_DEFER_N", mark "(",
          Token.number "2", mark ",", (name "F").afterSpace, mark ")", mark "(", mark ")",
          mark ")", mark ")"] := by
      cbv
    exact (hdeferral _ hadded [[]] rfl harguments 2 _ (by decide) (by decide) (.number 2) 2
      { steps := 14, depth := 4 } (by decide) (by decide)).2 _ _ hlex rfl

end Header

end VariadicMacros
