/-
**Scanning as rewriting.**

A scan puts tokens out and goes on with the rest of its text.  One relation says that it gets from
one text to another at no more than some number of invocations and some depth of nested argument
scans, whatever the limits, as long as they leave room for both.  A second relation says that it
does so wherever the tokens stand, whatever comes after them; these steps can be put one after the
other and side by side, and a call of a macro is one of them.

Main definitions:

* `VariadicMacros.Scan.Reaches` — the scan of a text gets to another text;
* `VariadicMacros.Scan.Rewrites` — tokens are rewritten wherever they stand;
* `VariadicMacros.Scan.Passes` — a scan leaves words as they are;
* `VariadicMacros.Scan.Yields`, `VariadicMacros.Scan.Emits` — the scan of some words ends with
  others, at the end of a text or wherever they stand;
* `VariadicMacros.Scan.Prepares` — the slots of a call are expanded;
* `VariadicMacros.Expansion.words` — the kinds and spellings of the tokens of an expansion;
* `VariadicMacros.MacroTable.ExpandsTo` — a text of some words expands to others.

Main results:

* `VariadicMacros.Scan.exists_rewrites_call` — **a call is rewritten to the filled-in body**;
* `VariadicMacros.Scan.expandsTo_of_reaches` — what a scan ends with is what a text expands to.
-/

import VariadicMacros.Expansion
import VariadicMacros.Proofs.FilledBodies

set_option autoImplicit false

namespace VariadicMacros

open Painted (Shows)

/-- None of the words is the name of a macro. -/
def MacroTable.Ignores (table : MacroTable) (ws : List Word) : Prop :=
  ∀ w ∈ ws, w.kind = .identifier → table[w.text]? = none

/-- No token of a replacement list is the name of a macro, those of the parameters aside. -/
def MacroTable.IgnoresBody (table : MacroTable) (d : Definition) : Prop :=
  ∀ t ∈ d.body, t.kind = .identifier → d.parameterIndex? t = none → table[t.text]? = none

/-- The kinds and spellings of the tokens of an expansion. -/
def Expansion.words (e : Expansion) : List Word := e.tokens.map Token.word

/-- Every text of the words `ws` expands to the words `result`. -/
def MacroTable.ExpandsTo (table : MacroTable) (limits : Limits) (ws result : List Word) : Prop :=
  ∀ (text : String) (tokens : List Token), Token.lex text = .ok tokens →
    tokens.map Token.word = ws →
      ∃ e, table.expand limits text = .ok e ∧ e.tokens.map Token.word = result

namespace MacroTable.Ignores

variable {table : MacroTable} {ws vs : List Word}

theorem nil : table.Ignores [] := by simp [Ignores]

theorem append (h : table.Ignores ws) (h' : table.Ignores vs) : table.Ignores (ws ++ vs) := by
  intro w hw
  rcases List.mem_append.1 hw with hw | hw
  · exact h w hw
  · exact h' w hw

theorem number (text : String) : table.Ignores [.number text] := by
  intro w hw hkind
  rw [List.mem_singleton.1 hw] at hkind
  cases hkind

theorem mark (text : String) : table.Ignores [.mark text] := by
  intro w hw hkind
  rw [List.mem_singleton.1 hw] at hkind
  cases hkind

theorem name {text : String} (h : table[text]? = none) : table.Ignores [.name text] := by
  intro w hw _
  rw [List.mem_singleton.1 hw]
  exact h

/-- A list of parts without names of macros has none. -/
theorem intercalate (hsep : table.Ignores ws) {parts : List (List Word)}
    (h : ∀ a ∈ parts, table.Ignores a) : table.Ignores (ws.intercalate parts) := by
  intro w hw hkind
  rcases mem_intercalate hw with hw | ⟨a, ha, hw⟩
  · exact hsep w hw hkind
  · exact h a ha w hw hkind

theorem list {parts : List (List Word)} (h : ∀ a ∈ parts, table.Ignores a) :
    table.Ignores (Word.list parts) :=
  (mark ",").intercalate h

theorem parens {arguments : List (List Word)} (h : ∀ a ∈ arguments, table.Ignores a) :
    table.Ignores (Word.parens arguments) :=
  (mark "(").append ((list h).append (mark ")"))

theorem call {f : String} {arguments : List (List Word)} (hf : table[f]? = none)
    (h : ∀ a ∈ arguments, table.Ignores a) : table.Ignores (Word.call f arguments) :=
  (name hf).append (parens h)

/-- Arguments that name no macro fill slots that name none. -/
theorem slots (d : Definition) {arguments : List (List Word)}
    (h : ∀ a ∈ arguments, table.Ignores a) : ∀ a ∈ d.slots arguments, table.Ignores a := by
  unfold Definition.slots
  cases d.parameters with
  | none => simp
  | some names =>
      simp only
      split
      · intro a ha
        rcases List.mem_append.1 ha with ha | ha
        · exact h a (List.mem_of_mem_take ha)
        · rw [List.mem_singleton.1 ha]
          exact list fun b hb => h b (List.mem_of_mem_drop hb)
      · split
        · simp
        · exact h

/-- A body that names no macro, filled in with words that name none, names none. -/
theorem filled {d : Definition} (hbody : table.IgnoresBody d) {results : List (List Word)}
    (h : ∀ a ∈ results, table.Ignores a) : table.Ignores (d.filled results) := by
  intro w hw
  obtain ⟨t, ht, hw⟩ := List.mem_flatMap.1 hw
  unfold Definition.filling at hw
  split at hw
  · next hindex =>
    rw [List.mem_singleton.1 hw]
    exact fun hkind => hbody t ht hkind hindex
  · next i _ =>
    by_cases hi : i < results.length
    · rw [List.getD_eq_getElem?_getD, List.getElem?_eq_getElem hi] at hw
      exact h _ (List.getElem_mem hi) w hw
    · rw [List.getD_eq_getElem?_getD, List.getElem?_eq_none (by omega)] at hw
      exact absurd hw (by simp)

end MacroTable.Ignores

namespace Scan

variable {table : MacroTable}

/-! ### Finding the next invocation -/

theorem definition?_eq_none {p : Painted} (h : p.kind = .identifier → table[p.text]? = none) :
    definition? table p = none := by
  unfold definition?
  split
  · next hp =>
    simp only [Bool.and_eq_true, decide_eq_true_eq] at hp
    exact h hp.1
  · rfl

theorem definition?_eq_some {d : Definition} (hd : table[d.name]? = some d) {p : Painted}
    (hp : p.word = .name d.name) (hfree : d.name ∉ p.hidden) : definition? table p = some d := by
  have hkind : p.kind = .identifier := congrArg Word.kind hp
  have htext : p.text = d.name := congrArg Word.text hp
  have hshown : p.isHidden = false := by
    rw [Bool.eq_false_iff]
    intro hmem
    rw [Painted.isHidden_iff, htext] at hmem
    exact hfree hmem
  simp [definition?, hkind, hshown, htext, hd]

/-- Tokens that name no macro are passed over. -/
theorem advance_of_ignores {ps : List Painted} (h : table.Ignores (ps.map Painted.word))
    (out after : List Painted) :
    advance table out (ps ++ after) = advance table (ps.reverse ++ out) after := by
  induction ps generalizing out with
  | nil => rfl
  | cons p ps ih =>
      have hp : definition? table p = none :=
        definition?_eq_none fun hkind => h p.word (by simp) hkind
      have hrest := ih (fun w hw => h w (by simp [hw])) (p :: out)
      rw [List.cons_append, advance.eq_def]
      simp only [hp]
      rw [hrest]
      simp

/-- What the search finds at a call whose arguments are read. -/
theorem advance_call {d : Definition} (hd : table[d.name]? = some d)
    (hfunction : d.isFunctionLike = true) {p opening : Painted} (hp : p.word = .name d.name)
    (hfree : d.name ∉ p.hidden) (hopening : opening.word = .mark "(") {after : List Painted}
    {list : Invocation.ArgumentList} (hread : Invocation.readArguments after = some list)
    (out : List Painted) :
    advance table out (p :: opening :: after) = (out, .call ⟨p, d, list.arguments,
      (p.hidden.inter list.close.hidden).add d.name, list.rest⟩) := by
  have hmark : opening.isMark "(" = true := by
    rw [Painted.isMark_eq, hopening]
    decide
  rw [advance.eq_def]
  simp only [definition?_eq_some hd hp hfree, hfunction, hmark, hread, if_true]

/-- A name that can only be that of a function-like macro. -/
def IsCallable (table : MacroTable) (name : String) : Prop :=
  ∀ d, table[name]? = some d → d.isFunctionLike = true

theorem IsCallable.of_none {name : String} (h : table[name]? = none) : IsCallable table name := by
  intro d hd
  rw [h] at hd
  cases hd

/-- The name of a function-like macro is passed over unless it is called. -/
theorem advance_uncalled {p : Painted} (h : IsCallable table p.text) {rest : List Painted}
    (hrest : ∀ q ∈ rest.head?, q.isMark "(" = false) (out : List Painted) :
    advance table out (p :: rest) = advance table (p :: out) rest := by
  rw [advance.eq_def]
  simp only
  cases hd : definition? table p with
  | none => rfl
  | some d =>
      have hfunction : d.isFunctionLike = true := by
        unfold definition? at hd
        split at hd
        · exact h d hd
        · cases hd
      simp only [hfunction, if_true]
      cases rest with
      | nil => rfl
      | cons q rest =>
          have hq : q.isMark "(" = false := hrest q (by simp)
          simp only [hq, Bool.false_eq_true, if_false]

/-! ### Getting from one text to another -/

/-- Wherever the limits leave room for `cost` invocations and for `depth` nested scans, the scan
of `text` puts out `done` and goes on with `rest`. -/
def Reaches (table : MacroTable) (depth cost : Nat) (text done rest : List Painted) : Prop :=
  ∀ (limits : Limits) (supply level steps : Nat) (out : List Painted),
    level + depth ≤ limits.depth → steps + cost ≤ limits.steps → cost ≤ supply →
      ∃ supply' used, used ≤ cost ∧ supply ≤ supply' + used ∧
        run table limits supply level steps out text =
          run table limits supply' level (steps + used) (done.reverse ++ out) rest

namespace Reaches

variable {depth depth' cost cost' : Nat} {text done mid done' rest : List Painted}

theorem refl (text : List Painted) : Reaches table depth 0 text [] text :=
  fun _ supply _ _ _ _ _ _ => ⟨supply, 0, Nat.le_refl _, Nat.le_refl _, rfl⟩

theorem trans (h : Reaches table depth cost text done mid)
    (h' : Reaches table depth cost' mid done' rest) :
    Reaches table depth (cost + cost') text (done ++ done') rest := by
  intro limits supply level steps out hdepth hsteps hsupply
  -- The second scan gets by with what the first one leaves of the supply.
  obtain ⟨supply₁, used₁, hused₁, hsupply₁, hrun₁⟩ :=
    h limits supply level steps out hdepth (by omega) (by omega)
  obtain ⟨supply₂, used₂, hused₂, hsupply₂, hrun₂⟩ :=
    h' limits supply₁ level (steps + used₁) (done.reverse ++ out) hdepth (by omega) (by omega)
  refine ⟨supply₂, used₁ + used₂, by omega, by omega, ?_⟩
  rw [hrun₁, hrun₂, List.reverse_append, List.append_assoc, Nat.add_assoc]

theorem mono (h : Reaches table depth cost text done rest) (hdepth : depth ≤ depth')
    (hcost : cost ≤ cost') : Reaches table depth' cost' text done rest := by
  intro limits supply level steps out hdepth' hsteps hsupply
  obtain ⟨supply', used, hused, hsupply', hrun⟩ :=
    h limits supply level steps out (by omega) (by omega) (by omega)
  exact ⟨supply', used, by omega, hsupply', hrun⟩

/-- Where the search for the next invocation gets without one, the scan gets too. -/
theorem of_advance
    (h : ∀ out, advance table out text = advance table (done.reverse ++ out) rest) :
    Reaches table depth 0 text done rest := by
  intro limits supply level steps out _ _ _
  refine ⟨supply, 0, Nat.le_refl _, Nat.le_refl _, ?_⟩
  rw [Nat.add_zero, run.eq_def, h, ← run.eq_def]

/-- A scan that reaches the end of its text is over. -/
theorem run_eq (h : Reaches table depth cost text done []) {limits : Limits}
    (supply : Nat) {level steps : Nat} (hdepth : level + depth ≤ limits.depth)
    (hsteps : steps + cost ≤ limits.steps) (hsupply : cost ≤ supply) :
    ∃ used ≤ cost, run table limits supply level steps [] text = .ok (done, steps + used) := by
  obtain ⟨supply', used, hused, -, hrun⟩ := h limits supply level steps [] hdepth hsteps hsupply
  refine ⟨used, hused, ?_⟩
  rw [hrun, run.eq_def]
  simp [advance]

/-- The name of a function-like macro is put out unless it is called. -/
theorem uncalled {p : Painted} (h : IsCallable table p.text)
    (hrest : ∀ q ∈ rest.head?, q.isMark "(" = false) :
    Reaches table depth 0 (p :: rest) [p] rest :=
  of_advance fun out => advance_uncalled h hrest out

/-- Names one after the other are not called, the last of them if no parenthesis follows. -/
theorem uncalled_append {names : List String} (h : ∀ n ∈ names, IsCallable table n)
    {ps : List Painted} (hps : ps.map Painted.word = names.map Word.name)
    (hrest : ∀ q ∈ rest.head?, q.isMark "(" = false) :
    Reaches table 0 0 (ps ++ rest) ps rest := by
  induction names generalizing ps with
  | nil =>
      obtain rfl := List.map_eq_nil_iff.1 hps
      exact refl rest
  | cons n names ih =>
      obtain ⟨p, qs, rfl, hp, hqs⟩ := List.map_eq_cons_iff.1 hps
      have htext : p.text = n := congrArg Word.text hp
      -- Behind every name but the last one stands another name.
      have hnext : ∀ q ∈ (qs ++ rest).head?, q.isMark "(" = false := by
        cases qs with
        | nil => exact hrest
        | cons q qs =>
            intro q' hq'
            obtain rfl : q = q' := by simpa using hq'
            cases names with
            | nil => cases hqs
            | cons m names =>
                rw [Painted.isMark_eq, decide_eq_false_iff_not, (List.cons.inj hqs).1]
                simp [Word.name, Word.mark]
      have hfirst : Reaches table 0 0 (p :: (qs ++ rest)) [p] (qs ++ rest) :=
        uncalled (htext ▸ h n (by simp)) hnext
      exact hfirst.trans (ih (fun m hm => h m (by simp [hm])) hqs)

end Reaches

/-! ### Rewriting tokens wherever they stand -/

/-- Whatever comes after the tokens `ps`, the scan puts out `done` and goes on with `rest` in
their place. -/
def Rewrites (table : MacroTable) (depth cost : Nat) (ps done rest : List Painted) : Prop :=
  ∀ after, Reaches table depth cost (ps ++ after) done (rest ++ after)

namespace Rewrites

variable {depth depth' cost cost' : Nat} {ps qs done mid done' rest : List Painted}

theorem refl (ps : List Painted) : Rewrites table depth 0 ps [] ps := fun _ => Reaches.refl _

theorem trans (h : Rewrites table depth cost ps done mid)
    (h' : Rewrites table depth cost' mid done' rest) :
    Rewrites table depth (cost + cost') ps (done ++ done') rest :=
  fun after => (h after).trans (h' after)

theorem mono (h : Rewrites table depth cost ps done rest) (hdepth : depth ≤ depth')
    (hcost : cost ≤ cost') : Rewrites table depth' cost' ps done rest :=
  fun after => (h after).mono hdepth hcost

/-- Tokens that come after are not touched. -/
theorem append_right (h : Rewrites table depth cost ps done rest) (qs : List Painted) :
    Rewrites table depth cost (ps ++ qs) done (rest ++ qs) := by
  intro after
  simpa using h (qs ++ after)

/-- Tokens that are put out are followed by what comes after them. -/
theorem append (h : Rewrites table depth cost ps done [])
    (h' : Rewrites table depth cost' qs done' rest) :
    Rewrites table depth (cost + cost') (ps ++ qs) (done ++ done') rest :=
  (h.append_right qs).trans h'

theorem reaches (h : Rewrites table depth cost ps done rest) :
    Reaches table depth cost ps done rest := by
  simpa using h []

/-- Tokens that name no macro are put out. -/
theorem of_ignores (h : table.Ignores (ps.map Painted.word)) :
    Rewrites table depth 0 ps ps [] :=
  fun after => Reaches.of_advance fun out => advance_of_ignores h out after

end Rewrites

/-! ### Words that a scan leaves as they are -/

/-- A scan of the words alone puts them out. -/
def Passes (table : MacroTable) (ws : List Word) : Prop :=
  ∀ ps : List Painted, ps.map Painted.word = ws → Reaches table 0 0 ps ps []

namespace Passes

variable {ws : List Word}

theorem of_ignores (h : table.Ignores ws) : Passes table ws := by
  rintro ps rfl
  exact (Rewrites.of_ignores h).reaches

/-- Names alone are not called. -/
theorem of_names {names : List String} (h : ∀ n ∈ names, IsCallable table n) :
    Passes table (names.map Word.name) := by
  intro ps hps
  have hnone : ∀ q ∈ ([] : List Painted).head?, q.isMark "(" = false := by simp
  have hreaches := Reaches.uncalled_append h hps hnone
  rwa [List.append_nil] at hreaches

/-- A name that stands alone is not called. -/
theorem of_isCallable {name : String} (h : IsCallable table name) :
    Passes table [.name name] :=
  of_names (List.forall_mem_singleton.2 h)

/-- A name in front of a word other than an opening parenthesis is not called. -/
theorem cons {name : String} (h : IsCallable table name) {w : Word} (hw : w ≠ .mark "(")
    (hws : Passes table (w :: ws)) : Passes table (.name name :: w :: ws) := by
  intro ps hps
  obtain ⟨p, qs, rfl, hp, hqs⟩ := List.map_eq_cons_iff.1 hps
  obtain ⟨q, rs, rfl, hq, -⟩ := List.map_eq_cons_iff.1 hqs
  have htext : p.text = name := congrArg Word.text hp
  have hmark : q.isMark "(" = false := by
    rw [Painted.isMark_eq, decide_eq_false_iff_not, hq]
    exact hw
  have hfirst : Reaches table 0 0 (p :: q :: rs) [p] (q :: rs) :=
    Reaches.uncalled (htext ▸ h) (by simpa using hmark)
  exact hfirst.trans (hws _ hqs)

/-- A name in front of further arguments is not called. -/
theorem list_cons {name : String} (h : IsCallable table name) {parts : List (List Word)}
    (hparts : table.Ignores (Word.list parts)) :
    Passes table (Word.list ([.name name] :: parts)) := by
  cases parts with
  | nil => exact of_isCallable h
  | cons part parts =>
      rw [Word.list_cons_cons]
      exact cons h (by decide) (of_ignores ((MacroTable.Ignores.mark ",").append hparts))

end Passes

/-! ### Scanning words to their end -/

/-- The scan of tokens that show `ws` and hide only names of `hidden` ends with tokens that show
`result` and hide only names of `hidden'`. -/
def Yields (table : MacroTable) (depth cost : Nat) (hidden : List String) (ws : List Word)
    (hidden' : List String) (result : List Word) : Prop :=
  ∀ ps, Shows hidden ps ws → ∃ qs, Shows hidden' qs result ∧ Reaches table depth cost ps qs []

namespace Yields

variable {depth depth' cost cost' : Nat} {hidden hidden' : List String} {ws result : List Word}

theorem mono (h : Yields table depth cost hidden ws hidden' result) (hdepth : depth ≤ depth')
    (hcost : cost ≤ cost') : Yields table depth' cost' hidden ws hidden' result := by
  intro ps hps
  obtain ⟨qs, hqs, hreaches⟩ := h ps hps
  exact ⟨qs, hqs, hreaches.mono hdepth hcost⟩

theorem of_passes (h : Passes table ws) (hsub : hidden ⊆ hidden') :
    Yields table depth 0 hidden ws hidden' ws := by
  intro ps hps
  exact ⟨ps, hps.mono hsub, (h ps hps.words).mono (Nat.zero_le _) (Nat.le_refl _)⟩

theorem of_ignores (h : table.Ignores ws) (hsub : hidden ⊆ hidden') :
    Yields table depth 0 hidden ws hidden' ws :=
  of_passes (.of_ignores h) hsub

/-- Words that are rewritten to words without names of macros are scanned into these. -/
theorem of_rewrites (h : ∀ ps, Shows hidden ps ws →
      ∃ qs, Shows hidden' qs result ∧ Rewrites table depth cost ps [] qs)
    (hresult : table.Ignores result) : Yields table depth cost hidden ws hidden' result := by
  intro ps hps
  obtain ⟨qs, hqs, hrewrites⟩ := h ps hps
  exact ⟨qs, hqs, (hrewrites.trans (.of_ignores (hqs.words ▸ hresult))).reaches⟩

end Yields

/-- What a scan ends with is what a text expands to. -/
theorem expandsTo_of_reaches {depth cost : Nat} {ws result : List Word}
    (h : ∀ ps, Shows [] ps ws → ∃ qs : List Painted, qs.map Painted.word = result ∧
      Reaches table depth cost ps qs [])
    {limits : Limits} (hdepth : depth ≤ limits.depth) (hsteps : cost ≤ limits.steps) :
    table.ExpandsTo limits ws result := by
  intro text tokens hlex hwords
  have hshows : Shows [] (tokens.map Painted.plain) ws := hwords ▸ Shows.plain tokens
  obtain ⟨qs, hqs, hreaches⟩ := h _ hshows
  have hlevel : 0 + depth ≤ limits.depth := by omega
  have hstart : 0 + cost ≤ limits.steps := by omega
  obtain ⟨used, -, hrun⟩ := hreaches.run_eq limits.steps hlevel hstart hsteps
  refine ⟨⟨qs.map Painted.toToken, 0 + used⟩, ?_, ?_⟩
  · simp only [MacroTable.expand, hlex, MacroTable.expandTokens, hrun]
  · rw [List.map_map]
    exact hqs

theorem Yields.expandsTo {depth cost : Nat} {hidden : List String} {ws result : List Word}
    (h : Yields table depth cost [] ws hidden result) {limits : Limits}
    (hdepth : depth ≤ limits.depth) (hsteps : cost ≤ limits.steps) :
    table.ExpandsTo limits ws result := by
  refine expandsTo_of_reaches (fun ps hps => ?_) hdepth hsteps
  obtain ⟨qs, hqs, hreaches⟩ := h ps hps
  exact ⟨qs, hqs.words, hreaches⟩

/-! ### Words that are scanned wherever they stand -/

/-- Wherever tokens stand that show `ws` and hide only names of `hidden`, the scan puts out tokens
with the words `result` for them. -/
def Emits (table : MacroTable) (depth cost : Nat) (hidden : List String)
    (ws result : List Word) : Prop :=
  ∀ ps, Shows hidden ps ws →
    ∃ qs : List Painted, qs.map Painted.word = result ∧ Rewrites table depth cost ps qs []

namespace Emits

variable {depth depth' cost cost' : Nat} {hidden hidden' : List String}
  {ws vs result result' : List Word}

theorem mono (h : Emits table depth cost hidden ws result) (hdepth : depth ≤ depth')
    (hcost : cost ≤ cost') : Emits table depth' cost' hidden ws result := by
  intro ps hps
  obtain ⟨qs, hqs, hrewrites⟩ := h ps hps
  exact ⟨qs, hqs, hrewrites.mono hdepth hcost⟩

theorem of_ignores (h : table.Ignores ws) : Emits table depth 0 hidden ws ws :=
  fun ps hps => ⟨ps, hps.words, .of_ignores (hps.words ▸ h)⟩

/-- Words that are rewritten to others put out what these put out. -/
theorem of_rewrites (h : ∀ ps, Shows hidden ps ws →
      ∃ qs, Shows hidden' qs vs ∧ Rewrites table depth cost ps [] qs)
    (h' : Emits table depth cost' hidden' vs result) :
    Emits table depth (cost + cost') hidden ws result := by
  intro ps hps
  obtain ⟨qs, hqs, hrewrites⟩ := h ps hps
  obtain ⟨rs, hrs, hrewrites'⟩ := h' qs hqs
  exact ⟨rs, hrs, hrewrites.trans hrewrites'⟩

theorem expandsTo (h : Emits table depth cost [] ws result) {limits : Limits}
    (hdepth : depth ≤ limits.depth) (hsteps : cost ≤ limits.steps) :
    table.ExpandsTo limits ws result := by
  refine expandsTo_of_reaches (fun ps hps => ?_) hdepth hsteps
  obtain ⟨qs, hqs, hrewrites⟩ := h ps hps
  exact ⟨qs, hqs, hrewrites.reaches⟩

theorem append (h : Emits table depth cost hidden ws result)
    (h' : Emits table depth cost' hidden vs result') :
    Emits table depth (cost + cost') hidden (ws ++ vs) (result ++ result') := by
  intro ps hps
  obtain ⟨as, bs, rfl, has, hbs⟩ := hps.exists_append
  obtain ⟨qs, hqs, hrewrites⟩ := h as has
  obtain ⟨qs', hqs', hrewrites'⟩ := h' bs hbs
  exact ⟨qs ++ qs', by rw [List.map_append, hqs, hqs'], hrewrites.append hrewrites'⟩

/-- Parts with a separator between them are put out one after the other. -/
theorem intercalate {ι : Type} {part result : ι → List Word} {indices : List ι}
    (hsep : table.Ignores ws)
    (h : ∀ i ∈ indices, Emits table depth cost hidden (part i) (result i)) :
    Emits table depth (indices.length * cost) hidden (ws.intercalate (indices.map part))
      (ws.intercalate (indices.map result)) := by
  induction indices with
  | nil =>
      rw [List.length_nil, Nat.zero_mul]
      exact of_ignores .nil
  | cons i indices ih =>
      have hi := h i (by simp)
      have hrest := ih fun j hj => h j (by simp [hj])
      -- A separator follows a part only when another part follows it.
      cases indices with
      | nil => simpa using hi
      | cons j indices =>
          simp only [List.map_cons, List.intercalate_cons_cons, List.append_assoc] at hrest ⊢
          have hall := hi.append ((of_ignores hsep).append hrest)
          rwa [Nat.zero_add, Nat.add_comm, ← Nat.succ_mul] at hall

end Emits

/-! ### Calls -/

/-- The slots of a call are expanded, each at a cost of its own. -/
inductive Prepares (table : MacroTable) (depth : Nat) (hidden hidden' : List String) :
    Nat → List (List Word) → List (List Word) → Prop
  | nil : Prepares table depth hidden hidden' 0 [] []
  | cons {cost rest : Nat} {slot result : List Word} {slots results : List (List Word)} :
    Yields table depth cost hidden slot hidden' result →
      Prepares table depth hidden hidden' rest slots results →
        Prepares table depth hidden hidden' (cost + rest) (slot :: slots) (result :: results)

namespace Prepares

variable {depth cost : Nat} {hidden hidden' : List String} {slots results : List (List Word)}

/-- An argument alone fills the slot of an ellipsis. -/
theorem singleton {ws result : List Word} (h : Yields table depth cost hidden ws hidden' result) :
    Prepares table depth hidden hidden' cost [Word.list [ws]] [result] := by
  rw [Word.list_singleton]
  exact .cons h .nil

/-- Slots that name no macro stay as they are. -/
theorem of_ignores (h : ∀ a ∈ slots, table.Ignores a) (hsub : hidden ⊆ hidden') :
    Prepares table depth hidden hidden' 0 slots slots := by
  induction slots with
  | nil => exact .nil
  | cons a slots ih =>
      exact .cons (.of_ignores (h a (by simp)) hsub) (ih fun b hb => h b (by simp [hb]))

/-- Arguments that name no macro fill slots that stay as they are. -/
theorem of_forall_ignores (d : Definition) {arguments : List (List Word)}
    (h : ∀ a ∈ arguments, table.Ignores a) :
    Prepares table depth hidden hidden 0 (d.slots arguments) (d.slots arguments) :=
  of_ignores (.slots d h) (List.Subset.refl _)

/-- The tokens that expanding the slots ends with. -/
theorem exists_outs (h : Prepares table depth hidden hidden' cost slots results)
    {actuals : List (List Painted)} (hactuals : List.Forall₂ (Shows hidden) actuals slots) :
    ∃ (outs : List (List Painted)) (costs : List Nat), List.Forall₂ (Shows hidden') outs results ∧
      costs.sum = cost ∧ costs.length = slots.length ∧ ∀ i < costs.length,
        costs.getD i 0 ≤ cost ∧
          Reaches table depth (costs.getD i 0) (actuals.getD i []) (outs.getD i []) [] := by
  induction h generalizing actuals with
  | nil => exact ⟨[], [], .nil, rfl, rfl, by simp⟩
  | @cons cost rest slot result slots results hslot _ ih =>
      cases hactuals with
      | @cons actual _ actuals _ hactual hactuals =>
          obtain ⟨out, hout, hreaches⟩ := hslot actual hactual
          obtain ⟨outs, costs, houts, hsum, hlength, hall⟩ := ih hactuals
          refine ⟨out :: outs, cost :: costs, .cons hout houts, by simp [hsum], by simp [hlength],
            ?_⟩
          intro i hi
          cases i with
          | zero => exact ⟨Nat.le_add_right _ _, hreaches⟩
          | succ i =>
              have hi : i < costs.length := by simpa using hi
              exact ⟨Nat.le_trans (hall i hi).1 (Nat.le_add_left _ _), (hall i hi).2⟩

end Prepares

/-- The expansion of an argument: a scan of its own, one level deeper. -/
def scanArgument (table : MacroTable) (limits : Limits) (supply level : Nat) :
    Substitution.ExpandArgument := fun argument steps =>
  if limits.depth ≤ level then .error (.depthLimit limits.depth)
  else run table limits supply (level + 1) steps [] argument

/-- With room for one more level the slots of a call are expanded to what their scans end with. -/
theorem affords_scanArgument {depth cost : Nat} {costs : List Nat}
    {actuals outs : List (List Painted)}
    (h : ∀ i < costs.length, costs.getD i 0 ≤ cost ∧
      Reaches table depth (costs.getD i 0) (actuals.getD i []) (outs.getD i []) [])
    {limits : Limits} {supply level : Nat} (hdepth : level + (depth + 1) ≤ limits.depth)
    (hsupply : cost ≤ supply) :
    Substitution.Affords limits.steps (scanArgument table limits supply level) costs actuals
      outs := by
  intro i hi steps hsteps
  obtain ⟨hcost, hreach⟩ := h i hi
  have hlevel : level + 1 + depth ≤ limits.depth := by omega
  obtain ⟨used, hused, hrun⟩ := hreach.run_eq supply hlevel hsteps (by omega)
  refine ⟨used, hused, ?_⟩
  rw [scanArgument, if_neg (by omega), hrun]

/-- What the search for the next invocation finds at a call. -/
theorem exists_advance_call {d : Definition} (hd : table[d.name]? = some d)
    (hfunction : d.isFunctionLike = true) {p : Painted} (hp : p.word = .name d.name)
    (hfree : d.name ∉ p.hidden) {arguments : List (List Word)} (hne : arguments ≠ [])
    (hargument : ∀ a ∈ arguments, Word.IsArgument a) {hidden : List String} {ps : List Painted}
    (hps : Shows hidden ps (Word.parens arguments)) :
    ∃ (actuals : List (List Painted)) (names : HideSet),
      List.Forall₂ (Shows hidden) actuals arguments ∧ names ⊆ d.name :: hidden ∧
      ∀ out after, advance table out (p :: ps ++ after) =
        (out, .call ⟨p, d, actuals, names, after⟩) := by
  obtain ⟨opening, inner, rfl, hopening, -, hinner⟩ := hps.exists_cons
  obtain ⟨actuals, close, hactuals, hclose, hread⟩ :=
    Invocation.exists_readArguments hne hargument hinner
  refine ⟨actuals, (p.hidden.inter close.hidden).add d.name, hactuals, ?_, ?_⟩
  · intro n hn
    rcases HideSet.mem_add.1 hn with rfl | hn
    · simp
    · exact List.mem_cons_of_mem _ (hclose (HideSet.mem_inter.1 hn).2)
  · intro out after
    exact advance_call hd hfunction hp hfree hopening (hread after) out

/-- **A call is rewritten to the filled-in body** once its slots are expanded. -/
theorem exists_rewrites_call (depth : Nat) {d : Definition} (hd : table[d.name]? = some d)
    (hfunction : d.isFunctionLike = true) (hquiet : d.isQuiet = true) {p : Painted}
    (hp : p.word = .name d.name) (hfree : d.name ∉ p.hidden) {arguments : List (List Word)}
    (htakes : d.takes arguments = true) (hargument : ∀ a ∈ arguments, Word.IsArgument a)
    {hidden hidden' : List String} (hsub : hidden ⊆ hidden') {ps : List Painted}
    (hps : Shows hidden ps (Word.parens arguments)) {cost : Nat}
    {results : List (List Word)}
    (hslots : Prepares table depth hidden hidden' cost (d.slots arguments) results) :
    ∃ qs, Shows (d.name :: hidden') qs (d.filled results) ∧
      Rewrites table (depth + 1) (cost + 1) (p :: ps) [] qs := by
  obtain ⟨actuals, names, hactuals, hnames, hadvance⟩ := exists_advance_call hd hfunction hp hfree
    (Definition.ne_nil_of_takes htakes) hargument hps
  obtain ⟨bound, hbind, hbound⟩ := Definition.exists_bind hfunction hactuals htakes
  obtain ⟨outs, costs, houts, hsum, hlength, hreaches⟩ := hslots.exists_outs hbound
  have hcosts : costs.length = d.slotCount := by
    rw [hlength, ← hbound.length_eq, Definition.length_bind hbind]
  have hnames' : names ⊆ d.name :: hidden' := List.Subset.trans hnames fun n hn =>
    (List.mem_cons.1 hn).elim (fun heq => heq ▸ List.mem_cons_self)
      fun hn => List.mem_cons_of_mem _ (hsub hn)
  have houts' := Substitution.shows_filledTokens (d := d) houts
  refine ⟨Painted.respace p.spaced
    ((Substitution.filledTokens d outs d.body).map (Painted.hide names)),
    ((houts'.mono (List.subset_cons_self _ _)).map_hide hnames').respace _, ?_⟩
  intro after limits supply level steps out hdepth hsteps hsupply
  -- The call itself takes one of the supply, and its slots get by with what is left.
  obtain ⟨supply, rfl⟩ := Nat.exists_eq_add_of_le' (Nat.le_trans (Nat.le_add_left 1 cost) hsupply)
  have hafford := affords_scanArgument hreaches hdepth (Nat.le_of_add_le_add_right hsupply)
  have hroom : steps + 1 + costs.sum ≤ limits.steps := by omega
  obtain ⟨used, hused, hreplacement⟩ :=
    Definition.exists_replacement hquiet hcosts hafford names hroom
  unfold scanArgument at hreplacement
  refine ⟨supply, 1 + used, by omega, by omega, ?_⟩
  rw [run.eq_def, hadvance]
  simp only [if_neg (show ¬ limits.steps ≤ steps by omega), hbind]
  rw [hreplacement, Nat.add_assoc]
  rfl

end Scan

end VariadicMacros
