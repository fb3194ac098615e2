/-
**The tables that sources and command lines can build.**

A table starts out empty, and each source that is loaded and each definition of a command line
changes it; a source that goes wrong at some line still leaves the definitions before that line
behind.  In every table that comes about in this way a definition stands under its own name, and
has passed the checks of a definition that is read.

Main definitions:

* `VariadicMacros.Definition.IsRead` — a definition that is read from some text;
* `VariadicMacros.MacroTable.Filed` — all definitions are read ones, under their own names;
* `VariadicMacros.MacroTable.Reachable` — the tables that come about.

Main results:

* `VariadicMacros.Loading.filed_readLine` — one more line keeps a table filed;
* `VariadicMacros.MacroTable.Reachable.filed` — **every reachable table is filed**.
-/

import VariadicMacros.Directive

set_option autoImplicit false

namespace VariadicMacros

/-- A definition that is read from some text. -/
def Definition.IsRead (d : Definition) : Prop :=
  ∃ cs tokens, Token.lexChars cs = .ok tokens ∧ Definition.ofTokens tokens = .ok d

theorem Definition.isRead_of_ofCommandLine {definition : String} {d : Definition}
    (h : Definition.ofCommandLine definition = .ok d) : d.IsRead := by
  unfold Definition.ofCommandLine at h
  split at h
  · cases h
  · next tokens htokens => exact ⟨_, tokens, htokens, h⟩

/-- A line that defines a macro defines one that is read. -/
theorem Directive.isRead_of_ofLine {line : List Char} {d : Definition}
    (h : Directive.ofLine line = .ok (some (.define d))) : d.IsRead := by
  unfold Directive.ofLine at h
  split at h
  · next cs _ =>
    unfold Directive.ofText at h
    simp only at h
    split at h
    · cases htokens : Token.lexChars ((Text.trimStart cs).dropWhile Text.isNameChar) with
      | error e =>
          rw [htokens] at h
          cases h
      | ok tokens =>
          rw [htokens] at h
          simp only at h
          cases hd : Definition.ofTokens tokens with
          | error e =>
              rw [hd] at h
              cases h
          | ok d' =>
              rw [hd] at h
              cases h
              exact ⟨_, tokens, htokens, hd⟩
    · split at h
      · cases hrest : Token.lexChars ((Text.trimStart cs).dropWhile Text.isNameChar) <;>
          rw [hrest] at h <;> cases h
      · cases h
  · cases h

namespace MacroTable

/-! ### Filed tables -/

/-- Every definition of the table is a read one and stands under its own name. -/
def Filed (table : MacroTable) : Prop :=
  ∀ (n : String) (d : Definition), table[n]? = some d → d.name = n ∧ d.IsRead

theorem filed_empty : Filed .empty := by
  intro n d h
  rw [getElem?_empty] at h
  cases h

theorem Filed.define {table : MacroTable} (h : table.Filed) {d : Definition} (hd : d.IsRead) :
    (table.define d).Filed := by
  intro n d' hd'
  rw [getElem?_define] at hd'
  split at hd'
  · next hn =>
    cases hd'
    exact ⟨hn, hd⟩
  · exact h n d' hd'

theorem Filed.forget {table : MacroTable} (h : table.Filed) (name : String) :
    (table.forget name).Filed := by
  intro n d hd
  rw [getElem?_forget] at hd
  split at hd
  · cases hd
  · exact h n d hd

theorem Filed.perform {table : MacroTable} (h : table.Filed) {directive : Directive}
    (hdirective : ∀ d, directive = .define d → d.IsRead) : (table.perform directive).Filed := by
  cases directive with
  | define d => exact h.define (hdirective d rfl)
  | undef name =>
      cases name with
      | none => exact h
      | some name => exact h.forget name
  | skipped keyword => exact h

/-- The names of a table are its keys. -/
theorem mem_keys_of_getElem? {table : MacroTable} {n : String} {d : Definition}
    (h : table[n]? = some d) : n ∈ table.keys := by
  rw [Std.ExtTreeMap.mem_keys, Std.ExtTreeMap.mem_iff_isSome_getElem?, h]
  rfl

end MacroTable

/-! ### Loading keeps tables filed -/

/-- One more line keeps a table filed. -/
theorem Loading.filed_readLine {l : Loading} (h : l.table.Filed) (line : List Char) :
    (l.readLine line).table.Filed := by
  unfold Loading.readLine
  split
  · exact h
  · split
    · exact h
    · exact h
    · next directive hline =>
      refine h.perform fun d hd => ?_
      rw [hd] at hline
      exact Directive.isRead_of_ofLine hline

theorem Loading.filed_foldl {l : Loading} (h : l.table.Filed) (lines : List (List Char)) :
    (lines.foldl Loading.readLine l).table.Filed := by
  induction lines generalizing l with
  | nil => exact h
  | cons line rest ih => exact ih (Loading.filed_readLine h line)

theorem Loading.table_finish (l : Loading) : l.finish.table = l.table := by
  unfold Loading.finish
  split <;> rfl

namespace MacroTable

theorem Filed.load {table : MacroTable} (h : table.Filed) (source : String) :
    (table.load source).table.Filed := by
  rw [load_eq]
  split
  · exact h
  · rw [Loading.table_finish]
    exact Loading.filed_foldl (by exact h) _

theorem Filed.defineFrom {table : MacroTable} (h : table.Filed) (definition : String) :
    (table.defineFrom definition).table.Filed := by
  unfold MacroTable.defineFrom
  split
  · exact h
  · next hd => exact h.define (Definition.isRead_of_ofCommandLine hd)

/-! ### Reachable tables -/

/-- The tables that come about when sources are loaded and definitions are given. -/
inductive Reachable : MacroTable → Prop
  | empty : Reachable .empty
  | load {table : MacroTable} (h : Reachable table) (source : String) :
      Reachable (table.load source).table
  | define {table : MacroTable} (h : Reachable table) (definition : String) :
      Reachable (table.defineFrom definition).table

theorem Reachable.define_read {table : MacroTable} (h : Reachable table) {definition : String}
    {d : Definition} (hd : Definition.ofCommandLine definition = .ok d) :
    Reachable (table.define d) := by
  have hdefined := h.define definition
  rwa [defineFrom, hd] at hdefined

/-- **Every reachable table is filed.** -/
theorem Reachable.filed {table : MacroTable} (h : Reachable table) : table.Filed := by
  induction h with
  | empty => exact filed_empty
  | load _ source ih => exact ih.load source
  | define _ definition ih => exact ih.defineFrom definition

end MacroTable

end VariadicMacros
