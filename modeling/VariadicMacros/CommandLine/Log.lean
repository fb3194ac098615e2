/-
**Log records and their levels.**

What a command reports about its work.  Every record has a level, and only those records are
written that are at least as grave as the verbosity asks for.  A written record is one line of
JSON.

Main definitions:

* `VariadicMacros.Level` with `Level.ofVerbosity`;
* `VariadicMacros.Record` with `Record.line`;
* `VariadicMacros.Record.ofNotice` — the records of reading definitions;
* `VariadicMacros.Record.ofRendering` — the records of generating a header.

Main results:

* `VariadicMacros.Level.admits_trace`, `VariadicMacros.Level.admits_self`.
-/

import VariadicMacros.CommandLine.Json
import VariadicMacros.Directive
import VariadicMacros.Header.Options
import VariadicMacros.Header.Timestamp

set_option autoImplicit false

namespace VariadicMacros

/-! ### Levels -/

/-- How grave a record is. -/
inductive Level
  | trace
  | debug
  | info
  | warning
  deriving DecidableEq, Repr

namespace Level

/-- The name of a level in a log. -/
def label : Level → String
  | .trace => "TRACE"
  | .debug => "DEBUG"
  | .info => "INFO"
  | .warning => "WARN"

/-- The place of a level in the order of gravity. -/
def rank : Level → Nat
  | .trace => 0
  | .debug => 1
  | .info => 2
  | .warning => 3

/-- Whether a threshold lets a level pass. -/
def admits (threshold level : Level) : Bool := threshold.rank ≤ level.rank

/-- The threshold for the number of times that more output was asked for. -/
def ofVerbosity : Nat → Level
  | 0 => .info
  | 1 => .debug
  | _ => .trace

@[simp] theorem admits_trace (level : Level) : trace.admits level = true := by
  simp [admits, rank]

@[simp] theorem admits_self (level : Level) : level.admits level = true := by simp [admits]

end Level

/-! ### Records -/

/-- One report. -/
structure Record where
  level : Level
  /-- The part of the program that reports. -/
  source : String
  fields : List (String × JsonValue)

namespace Record

/-- The line that a record is written as at a time. -/
def line (r : Record) (time : Timestamp) : String :=
  (JsonValue.object [("timestamp", .text time.logText), ("level", .text r.level.label),
    ("fields", .object r.fields), ("target", .text r.source)]).compact ++ "\n"

/-- The source of what commands report. -/
def commandSource : String := "vaforge"

/-- The source of what header generation reports. -/
def headerSource : String := "vaforge_core::header"

/-- The source of what macro expansion reports. -/
def expansionSource : String := "vaforge_expand::expand"

/-- A record with a message. -/
def message (level : Level) (source text : String) (fields : List (String × JsonValue)) : Record :=
  ⟨level, source, ("message", .text text) :: fields⟩

/-- A record of a command that names an event. -/
def event (text : String) (fields : List (String × JsonValue)) : Record :=
  ⟨.info, commandSource, ("event", .text text) :: fields⟩

/-- The record of a notice. -/
def ofNotice : Notice → Record
  | .redefined name => message .warning expansionSource "macro redefined" [("name", .text name)]
  | .skipped keyword =>
      message .trace expansionSource "directive skipped" [("directive", .text keyword)]
  | .loaded defined total =>
      message .debug expansionSource "definitions loaded"
        [("defined", .number defined), ("total", .number total)]

/-- The record of a finished expansion. -/
def ofExpansion (steps : Nat) : Record :=
  message .trace expansionSource "expansion finished" [("steps", .number steps)]

/-- The records of a header generated for accepted options. -/
def ofRendering (o : Options) : List Record :=
  (if o.exceedsPortableLimit then
    [message .warning headerSource
      ("counter invocations exceed the portable limit of " ++ toString portableArgumentLimit ++
        " macro arguments")
      [("max_arity", .number o.bound)]]
  else []) ++
  [message .debug headerSource "header rendered"
    [("max_arity", .number o.bound), ("prefix", .text o.stem)]]

end Record

end VariadicMacros
