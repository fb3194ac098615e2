/-
**The program on real files.**

The command line of the library on real files: the entries that a command line can reach are read
into a directory, the command is run on it, and the entries that changed are written back.

Main definitions:

* `VariadicMacros.Request.paths` — the paths that a request can reach;
* `VariadicMacros.Directory.placesOf` — the places along a path;
* `main`.
-/

import Std.Time.Zoned
import VariadicMacros.CommandLine.Run

set_option autoImplicit false

namespace VariadicMacros

/-! ### What a request can reach -/

/-- The header options of a command. -/
def Command.header : Command → HeaderArguments
  | .generate header _ => header
  | .check header => header
  | .expand header _ _ _ => header
  | .surface header _ => header

/-- The source file of a command. -/
def Command.source? : Command → Option String
  | .expand _ source _ _ => source
  | _ => none

/-- The paths that a request can reach, given the text of its configuration file. -/
def Request.paths (r : Request) (config : Option String) : List String :=
  let header := r.command.header
  let file := (config.bind ConfigFile.ofText?).getD {}
  [header.config.getD defaultConfig, (Settings.combine header file).out] ++
    r.command.source?.toList ++ r.logFile.toList

/-- The places along a path. -/
def Directory.placesOf (path : String) : List Place :=
  ((components path).foldl (fun (places, p) component =>
    let next : Place :=
      if component = "" ∨ component = "." then p
      else if component = ".." then p.parent
      else p ++ [component]
    (next :: places, next)) (([], start path) : List Place × Place)).1.reverse

namespace Program

/-! ### Real files -/

/-- What is at a path, if it can be read. -/
def entryAt? (path : String) : IO (Option Entry) := do
  try
    return some (.file (← IO.FS.readFile path))
  catch
    | .inappropriateType _ _ _ => return some .folder
    | _ => return none

/-- Reads what is at a place into a directory. -/
def readPlace (d : Directory) (p : Place) : IO Directory := do
  if p.isFixed then return d
  if p = Directory.nullDevice then return d.put p .sink
  match ← entryAt? p.path with
  | none => return d
  | some e => return d.put p e

/-- Reads what is along a path into a directory. -/
def readPath (d : Directory) (path : String) : IO Directory :=
  (Directory.placesOf path).foldlM readPlace d

/-- Writes an entry that is not the one that was there before. -/
def writeEntry (before : Directory) (path : String) (e : Entry) : IO Unit := do
  if before[path]? = some e then return
  match e with
  | .folder => IO.FS.createDirAll path
  | .sink => return
  | .file content =>
    let beside := path ++ ".tmp"
    IO.FS.writeFile beside content
    IO.FS.rename beside path

/-- The time of day where the program runs. -/
def now : IO Timestamp := do
  let t ← Std.Time.PlainDateTime.now
  return ⟨t.year, t.month.toNat, t.day.toNat, t.hour.toNat, t.minute.toNat, t.second.toNat,
    t.nanosecond.toNat⟩

/-- Runs a command line on real files. -/
def run (arguments : List String) : IO UInt32 := do
  let mut before : Directory := ∅
  if let .ok r := Request.parse arguments then
    before ← readPath before (r.command.header.config.getD defaultConfig)
    let config := (before.read (r.command.header.config.getD defaultConfig)).toOption
    for path in r.paths config do
      before ← readPath before path
  let outcome := runCommandLine arguments (← now) before
  for (path, e) in outcome.directory.toList do
    writeEntry before path e
  IO.print outcome.output
  if let some failure := outcome.failure then
    IO.eprintln ("Error: " ++ failure.message)
  return outcome.exitCode.toUInt32

end Program

end VariadicMacros

/-- Runs the command line. -/
def main (arguments : List String) : IO UInt32 := VariadicMacros.Program.run arguments
