/-
**Running commands on a directory.**

A run takes a command line, the time and the directory, and yields what is printed, the directory
afterwards, and the cause of its failure if it fails.  What it did before failing stays: a log
that was opened keeps the records written to it, and folders that were made remain.

Main definitions:

* `VariadicMacros.Failure` — why a run fails, with `Failure.exitCode`;
* `VariadicMacros.World` — the directory, the open log and the output during a run;
* `VariadicMacros.Action` — a part of a run;
* `VariadicMacros.Command.run` — carries out a command;
* `VariadicMacros.runOn` — a whole run on a host, with `VariadicMacros.Outcome`;
* `VariadicMacros.runCommandLine` — a whole run where the device refuses nothing.

Main results:

* `VariadicMacros.runOn_refused` — a refused command line changes nothing.
-/

import VariadicMacros.CommandLine.Directory
import VariadicMacros.CommandLine.Log
import VariadicMacros.CommandLine.Settings
import VariadicMacros.Expansion
import VariadicMacros.Header
import VariadicMacros.Header.Catalog

set_option autoImplicit false

namespace VariadicMacros

/-! ### Failures and outcomes -/

/-- How a header is out of date. -/
inductive Staleness
  | missing
  | differs
  deriving DecidableEq, Repr

/-- Why a run fails. -/
inductive Failure
  /-- The command line is refused. -/
  | usage
  /-- The configuration file cannot be understood. -/
  | config (path : String)
  | header (e : HeaderError)
  | macros (e : MacroError)
  | file (fault : PathFault)
  | stale (how : Staleness)
  deriving DecidableEq, Repr

/-- The code that a failed run ends with. -/
def Failure.exitCode : Failure → Nat
  | .usage => 2
  | _ => 1

/-- The wording of a failure for people. -/
def Failure.message : Failure → String
  | .usage => "the command line is not understood"
  | .config path => "config error in " ++ path
  | .header e => "generator error: " ++ e.message
  | .macros e => "expansion error: " ++ e.message
  | .file _ => "io error"
  | .stale .missing => "the header is out of date (missing)"
  | .stale .differs => "the header is out of date (content differs)"

/-- What a run leaves. -/
structure Outcome where
  failure : Option Failure
  output : String
  directory : Directory

/-- The code that a run ends with. -/
def Outcome.exitCode (o : Outcome) : Nat := (o.failure.map Failure.exitCode).getD 0

/-! ### Actions -/

/-- The state of a run. -/
structure World where
  host : Directory.Host
  time : Timestamp
  directory : Directory
  /-- Where the log is, while it is open and in the directory. -/
  log : Option Place
  threshold : Level
  output : String

/-- A part of a run: it changes the world, also when it fails. -/
abbrev Action := EStateM Failure World

/-- What a run leaves that ends with a result. -/
def Outcome.ofResult : EStateM.Result Failure World Unit → Outcome
  | .ok _ w => ⟨none, w.output, w.directory⟩
  | .error failure w => ⟨some failure, w.output, w.directory⟩

namespace Action

/-- Prints a text. -/
def print (text : String) : Action Unit :=
  modify fun w => { w with output := w.output ++ text }

/-- Writes a record to the log if there is one and the record is grave enough. -/
def report (r : Record) : Action Unit :=
  modify fun w =>
    match w.log with
    | none => w
    | some p =>
      if w.threshold.admits r.level then
        { w with directory := w.directory.append p (r.line w.time) }
      else w

/-- Writes records to the log. -/
def reportAll : List Record → Action Unit
  | [] => pure ()
  | r :: rest => do
    report r
    reportAll rest

/-- The result of a computation, whose error fails the run. -/
def orFail {ε α : Type} (failure : ε → Failure) : Except ε α → Action α
  | .ok a => pure a
  | .error e => throw (failure e)

/-- Opens the log. -/
def openLog (path : String) : Action Unit := do
  let w ← get
  let (p, directory) ← orFail Failure.file (w.directory.openForAppend path)
  set { w with directory := directory, log := some p }

/-- Reads a file. -/
def readFile (path : String) : Action String := do
  orFail Failure.file ((← get).directory.read path)

/-- Puts a complete file at a path.  A log at the same place is no longer seen. -/
def replaceFile (path content : String) : Action Unit := do
  let w ← get
  let (directory, result) := w.directory.replace w.host path content
  set { w with directory := directory }
  let p ← orFail Failure.file result
  modify fun w => { w with log := w.log.filter (·.path != p.path) }

/-! ### Steps of commands -/

/-- Reads the configuration file: the one that is named, or else the default one if it exists. -/
def readConfig (named : Option String) : Action ConfigFile := do
  let path := named.getD defaultConfig
  if named.isNone && !(← get).directory.holds path then return {}
  let text ← readFile path
  match ConfigFile.ofText? text with
  | none => throw (.config path)
  | some f => return f

/-- The settings for given arguments, whose options have to be accepted. -/
def resolve (a : HeaderArguments) : Action Settings := do
  let settings := Settings.combine a (← readConfig a.config)
  orFail Failure.header settings.options.check
  return settings

/-- The text of a header for given options. -/
def renderHeader (o : Options) : Action String := do
  let text ← orFail Failure.header (Header.render o (← get).time)
  reportAll (Record.ofRendering o)
  return text

/-- Goes on with the table of a loading, whose notices are reported. -/
def loaded (l : Loading) : Action MacroTable := do
  reportAll (l.notices.map Record.ofNotice)
  let _ ← orFail Failure.macros l.result
  return l.table

/-- Adds the definitions of a command line to a table. -/
def defineAll (table : MacroTable) : List String → Action MacroTable
  | [] => return table
  | definition :: rest => do
    let table ← loaded (table.defineFrom definition)
    defineAll table rest

/-! ### Commands -/

/-- Generates a header, with the settings that it is generated for. -/
def generated (a : HeaderArguments) : Action (Settings × String) := do
  let settings ← resolve a
  report (Record.event "generation_started"
    [("max_arity", .number settings.options.bound), ("prefix", .text settings.options.stem)])
  let text ← renderHeader settings.options
  return (settings, text)

/-- Puts a header at a path. -/
def writeHeader (path text : String) : Action Unit := do
  replaceFile path text
  report (Record.event "header_written"
    [("path", .text path), ("bytes", .number text.utf8ByteSize),
      ("fingerprint", .text (Header.fingerprint text))])

/-- Writes a header, or prints it. -/
def generate (a : HeaderArguments) (toStdout : Bool) : Action Unit := do
  let (settings, text) ← generated a
  if toStdout then print text else writeHeader settings.out text

/-- Reads the header that is there. -/
def readHeader (path : String) : Action String := do
  match (← get).directory.read path with
  | .ok text => return text
  | .error .notFound => throw (.stale .missing)
  | .error fault => throw (.file fault)

/-- Compares the header in the directory with what would be written. -/
def check (a : HeaderArguments) : Action Unit := do
  let settings ← resolve a
  let existing ← readHeader settings.out
  let expected := Header.fingerprint (← renderHeader settings.options)
  let actual := Header.fingerprint existing
  report (Record.message .debug Record.commandSource "fingerprints compared"
    [("expected", .text expected), ("actual", .text actual)])
  if expected != actual then throw (.stale .differs)
  else
    report (Record.event "header_current" [("path", .text settings.out)])
    print (settings.out ++ " is up to date\n")

/-- The text that macros are read from: a source file, or else a header. -/
def macroSource (a : HeaderArguments) : Option String → Action String
  | some path => readFile path
  | none => do
    let settings ← resolve a
    renderHeader settings.options

/-- Expands a text with the macros of a header or of a source file and further definitions. -/
def expand (a : HeaderArguments) (source : Option String) (definitions : List String)
    (text : String) : Action Unit := do
  let source ← macroSource a source
  let table ← loaded (MacroTable.empty.load source)
  let table ← defineAll table definitions
  report (Record.message .debug Record.commandSource "preprocessor ready"
    [("macros", .number table.size)])
  let expansion ← orFail Failure.macros (table.expand {} text)
  report (Record.ofExpansion expansion.steps)
  print (expansion.text ++ "\n")

/-- A text with spaces after it up to a width. -/
def padRight (width : Nat) (text : String) : String :=
  text ++ String.ofList (List.replicate (width - text.length) ' ')

/-- A catalog with its summaries in one column. -/
def catalogTable (catalog : List Signature) : String :=
  let width := catalog.foldl (fun w s => max w s.display.utf8ByteSize) 0
  catalog.foldl (fun out s => out ++ padRight width s.display ++ "  " ++ s.summary ++ "\n") ""

/-- A catalog as JSON. -/
def catalogJson (catalog : List Signature) : JsonValue :=
  .list (catalog.map fun s =>
    .object [("name", .text s.name),
      ("params",
        match s.parameters with
        | none => .null
        | some names => .list (names.map JsonValue.text)),
      ("summary", .text s.summary)])

/-- Lists the macros of a header. -/
def surface (a : HeaderArguments) (json : Bool) : Action Unit := do
  let catalog := (← resolve a).options.catalog
  if json then print ((catalogJson catalog).pretty ++ "\n")
  else print (catalogTable catalog)

end Action

/-- Carries out a command. -/
def Command.run : Command → Action Unit
  | .generate a toStdout => Action.generate a toStdout
  | .check a => Action.check a
  | .expand a source definitions text => Action.expand a source definitions text
  | .surface a json => Action.surface a json

/-- Opens the log if one is asked for and carries out the command. -/
def Request.run (r : Request) : Action Unit := do
  match r.logFile with
  | none => pure ()
  | some path => Action.openLog path
  r.command.run

/-- What is printed when the version is asked for. -/
def versionText : String := "vaforge 0.1.0\n"

/-- What is printed when help is asked for. -/
def helpText : String := "Usage: vaforge [OPTIONS] <COMMAND>\n"

/-- Runs a command line on a host. -/
def runOn (host : Directory.Host) (arguments : List String) (time : Timestamp)
    (directory : Directory) : Outcome :=
  match Request.parse arguments with
  | .error .refused => ⟨some .usage, "", directory⟩
  | .error .help => ⟨none, helpText, directory⟩
  | .error .version => ⟨none, versionText, directory⟩
  | .ok r =>
    Outcome.ofResult
      (r.run.run ⟨host, time, directory, none, Level.ofVerbosity r.verbosity, ""⟩)

/-- Runs a command line where the device refuses nothing. -/
def runCommandLine (arguments : List String) (time : Timestamp) (directory : Directory) :
    Outcome :=
  runOn .usual arguments time directory

/-- A refused command line changes nothing. -/
theorem runOn_refused {arguments : List String} (h : Request.parse arguments = .error .refused)
    (host : Directory.Host) (time : Timestamp) (directory : Directory) :
    runOn host arguments time directory = ⟨some .usage, "", directory⟩ := by
  simp [runOn, h]

end VariadicMacros
