/-
**A source that is loaded again.**

Which directives of a source are carried out is seen without a table: those of the lines before the
first one that is wrong, or before the end.  Loading carries them out one after the other.  What is
found under a name afterwards was left there by the last directive that mentions the name, whatever
the table held before; so a source that is loaded once more changes nothing.

Main definitions:

* `VariadicMacros.Source.cleanLines` — the lines of a source that directives are read off;
* `VariadicMacros.Source.Reading` — the directives that are carried out, and the error that ends
  them;
* `VariadicMacros.MacroTable.performAll` — carries out directives one after the other.

Main results:

* `VariadicMacros.MacroTable.load_eq_read` — **loading carries out what is read**;
* `VariadicMacros.MacroTable.getElem?_performAll` — **the last directive that mentions a name
  settles it**;
* `VariadicMacros.MacroTable.load_load` — **a source that is loaded again changes nothing**.
-/

import VariadicMacros.Directive

set_option autoImplicit false

namespace VariadicMacros

/-! ### What is read of a source -/

/-- How many definitions some directives make. -/
def Directive.totalWeight : List Directive → Nat
  | [] => 0
  | d :: ds => d.weight + totalWeight ds

theorem Directive.totalWeight_append (ds es : List Directive) :
    totalWeight (ds ++ es) = totalWeight ds + totalWeight es := by
  induction ds with
  | nil => simp [totalWeight]
  | cons d ds ih => simp only [List.cons_append, totalWeight, ih, Nat.add_assoc]

/-- The lines of a source, with continued lines joined and comments replaced. -/
def Source.cleanLines (source : String) : Except MacroError (List (List Char)) :=
  (stripComments (splice source.toList)).map lines

/-- What is read of a source before any table is looked at. -/
structure Source.Reading where
  /-- The directives of the lines before the first one that is wrong. -/
  directives : List Directive
  /-- Why the reading ended before the last line, if it did. -/
  error : Option MacroError
  deriving DecidableEq, Repr

namespace Source.Reading

/-- Reads lines up to the first one that is wrong. -/
def ofLines : List (List Char) → Reading
  | [] => ⟨[], none⟩
  | line :: rest =>
    match Directive.ofLine line with
    | .error e => ⟨[], some e⟩
    | .ok directive? => ⟨directive?.toList ++ (ofLines rest).directives, (ofLines rest).error⟩

/-- Reads a source; nothing is carried out of one with an open comment. -/
def ofSource (source : String) : Reading :=
  match Source.cleanLines source with
  | .error e => ⟨[], some e⟩
  | .ok lines => ofLines lines

/-- How many definitions are made. -/
def count (r : Reading) : Nat := Directive.totalWeight r.directives

/-- The result of a loading: the error that ended it, or the number of definitions. -/
def result (r : Reading) : Except MacroError Nat :=
  match r.error with
  | some e => .error e
  | none => .ok r.count

theorem result_eq_ok_iff {r : Reading} {n : Nat} :
    r.result = .ok n ↔ r.error = none ∧ r.count = n := by
  unfold result
  cases r.error <;> simp

theorem result_eq_error_iff {r : Reading} {e : MacroError} :
    r.result = .error e ↔ r.error = some e := by
  unfold result
  cases r.error <;> simp

/-- Lines that are all read are followed by what is read of the lines after them. -/
theorem ofLines_append {ls : List (List Char)} (h : (ofLines ls).error = none)
    (ms : List (List Char)) :
    ofLines (ls ++ ms) =
      ⟨(ofLines ls).directives ++ (ofLines ms).directives, (ofLines ms).error⟩ := by
  induction ls with
  | nil => rfl
  | cons line rest ih =>
      rw [List.cons_append, ofLines]
      rw [ofLines] at h ⊢
      cases hline : Directive.ofLine line with
      | error e =>
          rw [hline] at h
          cases h
      | ok directive? =>
          rw [hline] at h
          simp only [ih h, List.append_assoc]

/-- A reading that ends early ends at a line that is wrong, after lines that are all read. -/
theorem exists_of_ofLines_error {ls : List (List Char)} {e : MacroError}
    (h : (ofLines ls).error = some e) :
    ∃ before line after, ls = before ++ line :: after ∧ (ofLines before).error = none ∧
      Directive.ofLine line = .error e ∧ (ofLines before).directives = (ofLines ls).directives := by
  induction ls with
  | nil => cases h
  | cons line rest ih =>
      rw [ofLines] at h ⊢
      cases hline : Directive.ofLine line with
      | error e' =>
          rw [hline] at h
          cases h
          exact ⟨[], line, rest, rfl, rfl, hline, rfl⟩
      | ok directive? =>
          rw [hline] at h
          obtain ⟨before, wrong, after, rfl, hbefore, hwrong, hdirectives⟩ := ih h
          refine ⟨line :: before, wrong, after, rfl, ?_, hwrong, ?_⟩
          · rw [ofLines, hline]
            exact hbefore
          · rw [ofLines, hline]
            simp only [hdirectives]

end Source.Reading

/-! ### Loading carries out what is read -/

namespace MacroTable

/-- Carries out directives one after the other. -/
def performAll (table : MacroTable) (directives : List Directive) : MacroTable :=
  directives.foldl perform table

@[simp] theorem performAll_nil (table : MacroTable) : table.performAll [] = table := rfl

@[simp] theorem performAll_cons (table : MacroTable) (d : Directive) (ds : List Directive) :
    table.performAll (d :: ds) = (table.perform d).performAll ds := rfl

theorem performAll_append (table : MacroTable) (ds es : List Directive) :
    table.performAll (ds ++ es) = (table.performAll ds).performAll es :=
  List.foldl_append

end MacroTable

namespace Loading

/-- Reading a line that is not wrong carries out what it asks for. -/
theorem readLine_of_ok {l : Loading} {count : Nat} (hcount : l.result = .ok count)
    {line : List Char} {directive? : Option Directive}
    (hline : Directive.ofLine line = .ok directive?) :
    (l.readLine line).table = l.table.performAll directive?.toList ∧
      (l.readLine line).result = .ok (count + Directive.totalWeight directive?.toList) := by
  cases directive? <;> simp [readLine, hcount, hline, Directive.totalWeight]

/-- **Reading lines carries out their directives** up to the first line that is wrong. -/
theorem foldl_readLine {l : Loading} {count : Nat} (hcount : l.result = .ok count)
    (ls : List (List Char)) :
    (ls.foldl readLine l).table = l.table.performAll (Source.Reading.ofLines ls).directives ∧
      (ls.foldl readLine l).result = (Source.Reading.ofLines ls).result.map (count + ·) := by
  induction ls generalizing l count with
  | nil => exact ⟨rfl, hcount⟩
  | cons line rest ih =>
      rw [List.foldl_cons, Source.Reading.ofLines]
      cases hline : Directive.ofLine line with
      | error e =>
          have hread : l.readLine line = { l with result := .error e } := by
            simp [readLine, hcount, hline]
          rw [hread, foldl_readLine_of_error rfl]
          exact ⟨rfl, rfl⟩
      | ok directive? =>
          obtain ⟨htable, hresult⟩ := readLine_of_ok hcount hline
          obtain ⟨ihTable, ihResult⟩ := ih hresult
          rw [ihTable, ihResult, htable, ← MacroTable.performAll_append]
          refine ⟨rfl, ?_⟩
          simp only [Source.Reading.result]
          cases (Source.Reading.ofLines rest).error with
          | some e => rfl
          | none =>
              simp [Source.Reading.count, Except.map, Directive.totalWeight_append, Nat.add_assoc]

end Loading

namespace MacroTable

/-- **Loading carries out what is read** of a source, into whatever table. -/
theorem load_eq_read (table : MacroTable) (source : String) :
    (table.load source).table = table.performAll (Source.Reading.ofSource source).directives ∧
      (table.load source).result = (Source.Reading.ofSource source).result := by
  rw [load_eq, Source.Reading.ofSource, Source.cleanLines]
  cases Source.stripComments (Source.splice source.toList) with
  | error e => exact ⟨rfl, rfl⟩
  | ok cs =>
      have hstart : (Loading.start table).result = .ok 0 := rfl
      obtain ⟨htable, hresult⟩ := Loading.foldl_readLine hstart (Source.lines cs)
      simp only [Except.map]
      unfold Loading.finish
      rw [hresult]
      cases (Source.Reading.ofLines (Source.lines cs)).result with
      | error e => exact ⟨htable, rfl⟩
      | ok n => exact ⟨htable, by simp [Except.map]⟩

end MacroTable

/-! ### The last directive that mentions a name -/

namespace Directive

/-- The name that a directive defines or forgets. -/
def mentioned? : Directive → Option String
  | .define d => some d.name
  | .undef name => name
  | .skipped _ => none

/-- What a directive leaves under the name that it mentions. -/
def left? : Directive → Option Definition
  | .define d => some d
  | .undef _ => none
  | .skipped _ => none

/-- The last of some directives that mentions a name. -/
def lastMention? (name : String) (directives : List Directive) : Option Directive :=
  directives.reverse.find? fun d => d.mentioned? == some name

end Directive

namespace MacroTable

/-- A directive settles the name that it mentions and no other one. -/
theorem getElem?_perform (table : MacroTable) (d : Directive) (name : String) :
    (table.perform d)[name]? = if d.mentioned? = some name then d.left? else table[name]? := by
  cases d with
  | define d => simp [perform, Directive.mentioned?, Directive.left?, getElem?_define]
  | undef other =>
      cases other with
      | none => simp [perform, Directive.mentioned?]
      | some other => simp [perform, Directive.mentioned?, Directive.left?, getElem?_forget]
  | skipped keyword => simp [perform, Directive.mentioned?]

/-- **The last directive that mentions a name settles it**, and a name that none of them mentions
keeps its definition. -/
theorem getElem?_performAll (table : MacroTable) (ds : List Directive) (name : String) :
    (table.performAll ds)[name]? =
      match Directive.lastMention? name ds with
      | some d => d.left?
      | none => table[name]? := by
  induction ds generalizing table with
  | nil => rfl
  | cons d rest ih =>
      rw [performAll_cons, ih, getElem?_perform, Directive.lastMention?, Directive.lastMention?,
        List.reverse_cons, List.find?_append]
      cases rest.reverse.find? fun d => d.mentioned? == some name with
      | some last => rfl
      | none => by_cases hd : d.mentioned? = some name <;> simp [hd]

/-- Directives that are carried out once more change nothing. -/
theorem performAll_performAll (table : MacroTable) (ds : List Directive) :
    (table.performAll ds).performAll ds = table.performAll ds := by
  refine Std.ExtTreeMap.ext_getElem? fun name => ?_
  rw [getElem?_performAll]
  split
  · next d hd => rw [getElem?_performAll, hd]
  · rfl

/-- **A source that is loaded again changes nothing.**  What a loading results in does not depend
on the table; what it carries out are the directives before the first wrong line, and a name that
none of them mentions keeps its definition; and a second loading has the same result and leaves the
table as it is. -/
theorem load_load (source : String) :
    (∀ table other : MacroTable, (table.load source).result = (other.load source).result) ∧
    (∀ table : MacroTable,
      (table.load source).table = table.performAll (Source.Reading.ofSource source).directives ∧
      ∀ name, (∀ d ∈ (Source.Reading.ofSource source).directives, d.mentioned? ≠ some name) →
        (table.load source).table[name]? = table[name]?) ∧
    ∀ table : MacroTable,
      ((table.load source).table.load source).result = (table.load source).result ∧
        ((table.load source).table.load source).table = (table.load source).table := by
  refine ⟨fun table other => ?_, fun table => ⟨?_, fun name hname => ?_⟩, fun table => ⟨?_, ?_⟩⟩
  · rw [(load_eq_read table source).2, (load_eq_read other source).2]
  · exact (load_eq_read table source).1
  · have hnone :
        Directive.lastMention? name (Source.Reading.ofSource source).directives = none := by
      rw [Directive.lastMention?, List.find?_eq_none]
      intro d hd
      simpa using hname d (List.mem_reverse.1 hd)
    rw [(load_eq_read table source).1, getElem?_performAll, hnone]
  · rw [(load_eq_read _ source).2, (load_eq_read table source).2]
  · rw [(load_eq_read _ source).1, (load_eq_read table source).1, performAll_performAll]

/-- A source that defines a name, forgets it and defines it again, and that is wrong at its fourth
line: the definition of the line after that is not made, and the older one is kept. -/
theorem load_load_stopped :
    ∃ (source : String) (table : MacroTable),
      source = "#define A 1\n#undef A\n#define A 2\n#define (\n#define B 3" ∧
      Source.Reading.ofSource source =
        ⟨[.define ⟨"A", none, false, [.number "1"]⟩, .undef (some "A"),
            .define ⟨"A", none, false, [.number "2"]⟩],
          some (.malformedDefinition (.nameExpected "("))⟩ ∧
      (∀ d ∈ (Source.Reading.ofSource source).directives, d.mentioned? ≠ some "B") ∧
      (table.load source).table["B"]? = some ⟨"B", none, false, [.number "7"]⟩ ∧
      (table.load source).result = (MacroTable.empty.load source).result ∧
      ((table.load source).table.load source).table = (table.load source).table := by
  refine ⟨_, MacroTable.empty.define ⟨"B", none, false, [.number "7"]⟩, rfl, ?_⟩
  generalize hsource : "#define A 1\n#undef A\n#define A 2\n#define (\n#define B 3" = source
  have hread : Source.Reading.ofSource source =
      ⟨[.define ⟨"A", none, false, [.number "1"]⟩, .undef (some "A"),
          .define ⟨"A", none, false, [.number "2"]⟩],
        some (.malformedDefinition (.nameExpected "("))⟩ := by
    rw [← hsource]
    decide +kernel
  have hname : ∀ d ∈ (Source.Reading.ofSource source).directives, d.mentioned? ≠ some "B" := by
    rw [hread]
    decide
  obtain ⟨hresult, hkept, hagain⟩ := load_load source
  refine ⟨hread, hname, ?_, hresult _ _, (hagain _).2⟩
  rw [(hkept _).2 "B" hname, getElem?_define, if_pos rfl]

end MacroTable

end VariadicMacros
