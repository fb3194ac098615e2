/-
**Directories as finite maps, and the paths through them.**

The files that a command reads and writes, kept as a map from places to entries.  A place is a
list of names seen from the working directory; it starts with `..` for places above the working
directory and with an empty name for places seen from the root.  Paths are followed name by name,
and every name before the last has to lead to a folder.

Main definitions:

* `VariadicMacros.Place` — where an entry is, `VariadicMacros.Directory` — what is there;
* `VariadicMacros.Directory.read`, `VariadicMacros.Directory.openForAppend` — reading a file and
  opening one that is written at its end;
* `VariadicMacros.Directory.folderNames` — the path of the folder that a path names a file in;
* `VariadicMacros.Directory.replace` — writes a file beside its place and then moves it there, so
  that either the old file or the complete new one is seen, on a `VariadicMacros.Directory.Host`;
* `VariadicMacros.Directory.write` — writes a file at its place;
* `VariadicMacros.Directory.files` — the files below the working directory in order.

Main results:

* `VariadicMacros.Directory.getElem?_put` — what a changed directory holds;
* `VariadicMacros.Directory.getElem?_ensureFolders_file` — making folders changes no file.
-/

import Std.Data.ExtTreeMap

set_option autoImplicit false

namespace VariadicMacros

/-! ### Places -/

/-- Where an entry is. -/
abbrev Place := List String

namespace Place

/-- The root of all files. -/
def root : Place := [""]

/-- The place one level up; the root has none above it. -/
def parent (p : Place) : Place :=
  if p = root then p
  else
    match p.getLast? with
    | none => [".."]
    | some last => if last = ".." then p ++ [".."] else p.dropLast

/-- A place as a path. -/
def path (p : Place) : String := String.intercalate "/" p

/-- Whether a place is a folder whatever the files are: the working directory, those above it,
and the root. -/
def isFixed (p : Place) : Bool := p == root || p.all (· == "..")

/-- Whether a place is below the working directory. -/
def isBelow (p : Place) : Bool := p.head? != some ".." && p.head? != some ""

end Place

/-- What can be at a place. -/
inductive Entry
  | file (content : String)
  | folder
  /-- A file that is always empty and loses what is written to it. -/
  | sink
  deriving DecidableEq, Repr

/-- Why a path cannot be read or written. -/
inductive PathFault
  /-- Nothing is there. -/
  | notFound
  /-- A name before the last does not lead to a folder. -/
  | notAFolder
  /-- A folder is where a file is asked for. -/
  | isAFolder
  /-- A name is longer than a file name can be. -/
  | nameTooLong
  /-- The path is longer than a path can be. -/
  | pathTooLong
  /-- The path does not name a file. -/
  | noFileName
  /-- The path has a character that no path has. -/
  | invalid
  /-- The device does not do what is asked for. -/
  | refused
  deriving DecidableEq, Repr

/-- The entries of a directory by the paths of their places. -/
abbrev Directory := Std.ExtTreeMap String Entry

namespace Directory

/-- The folders that are found at the root. -/
def usualFolders : List String :=
  ["bin", "dev", "etc", "home", "lib", "mnt", "opt", "proc", "root", "run", "sbin", "srv", "sys",
    "tmp", "usr", "var"]

/-- The null device. -/
def nullDevice : Place := ["", "dev", "null"]

/-- The working directory without files, in surroundings that hold the usual folders and the null
device. -/
def fresh : Directory :=
  (usualFolders.foldl (fun d name => d.insert (Place.path ["", name]) .folder)
    (∅ : Directory)).insert nullDevice.path .sink

/-- What is at a place. -/
def entry? (d : Directory) (p : Place) : Option Entry :=
  if p.isFixed then some .folder else d[p.path]?

/-- The directory with an entry at a place. -/
def put (d : Directory) (p : Place) (e : Entry) : Directory := d.insert p.path e

theorem getElem?_put (d : Directory) (p : Place) (e : Entry) (path : String) :
    (d.put p e)[path]? = if p.path = path then some e else d[path]? := by
  simp [put, Std.ExtTreeMap.getElem?_insert]

/-! ### Following paths -/

/-- The longest file name, in bytes. -/
def longestName : Nat := 255

/-- The longest path, in bytes. -/
def longestPath : Nat := 4095

/-- Goes from a place that has to be a folder to the place of a name in it. -/
def enter (d : Directory) (p : Place) (component : String) : Except PathFault Place :=
  match d.entry? p with
  | none => .error .notFound
  | some (.file _) => .error .notAFolder
  | some .sink => .error .notAFolder
  | some .folder =>
    if component = "" ∨ component = "." then .ok p
    else if component = ".." then .ok p.parent
    else if longestName < component.utf8ByteSize then .error .nameTooLong
    else .ok (p ++ [component])

/-- Goes on from a place along names. -/
def follow (d : Directory) (p : Place) : List String → Except PathFault Place
  | [] => .ok p
  | component :: rest =>
    match d.enter p component with
    | .error fault => .error fault
    | .ok next => d.follow next rest

/-- Where a path starts. -/
def start (path : String) : Place := if path.toList.head? = some '/' then Place.root else []

/-- The names of a path, empty ones among them. -/
def components (path : String) : List String := (path.toList.splitOn '/').map String.ofList

/-- Whether a path has a character that no path has. -/
def isInvalid (path : String) : Bool := path.toList.contains '\x00'

/-- The place that a path leads to, which may hold nothing.  The path itself is looked at before
any of its names is followed. -/
def locate (d : Directory) (path : String) : Except PathFault Place :=
  if isInvalid path then .error .invalid
  else if path = "" then .error .notFound
  else if longestPath < path.utf8ByteSize then .error .pathTooLong
  else d.follow (start path) (components path)

/-- Reads a file. -/
def read (d : Directory) (path : String) : Except PathFault String :=
  match d.locate path with
  | .error fault => .error fault
  | .ok p =>
    match d.entry? p with
    | none => .error .notFound
    | some .folder => .error .isAFolder
    | some (.file content) => .ok content
    | some .sink => .ok ""

/-- Whether a path leads to a file or a folder. -/
def holds (d : Directory) (path : String) : Bool :=
  match d.locate path with
  | .error _ => false
  | .ok p => (d.entry? p).isSome

/-- Opens a file that is written at its end and makes it if there is none. -/
def openForAppend (d : Directory) (path : String) : Except PathFault (Place × Directory) :=
  match d.locate path with
  | .error fault => .error fault
  | .ok p =>
    match d.entry? p, (components path).getLast? with
    | some .folder, _ => .error .isAFolder
    | _, some "" => .error .isAFolder
    | some (.file _), _ => .ok (p, d)
    | some .sink, _ => .ok (p, d)
    | none, _ => .ok (p, d.put p (.file ""))

/-- Adds text to the end of a file, if there is one at the place that keeps it. -/
def append (d : Directory) (p : Place) (text : String) : Directory :=
  match d.entry? p with
  | some (.file content) => d.put p (.file (content ++ text))
  | _ => d

/-! ### Making folders -/

/-- Makes the folders along names from a folder on.  The folders made before a fault stay. -/
def ensureFolders (d : Directory) (p : Place) : List String → Directory × Except PathFault Place
  | [] => (d, .ok p)
  | component :: rest =>
    match d.enter p component with
    | .error fault => (d, .error fault)
    | .ok next =>
      match d.entry? next with
      | some .folder => d.ensureFolders next rest
      | some (.file _) => (d, .error .notAFolder)
      | some .sink => (d, .error .notAFolder)
      | none => (d.put next .folder).ensureFolders next rest

/-- Whether a name in a path leads nowhere. -/
def isIdle (component : String) : Bool := component == "" || component == "."

/-- The names of a path without those at its end that lead nowhere; the first name tells where the
path starts and stays. -/
def withoutIdleEnd : List String → List String
  | [] => []
  | first :: rest => first :: (rest.reverse.dropWhile isIdle).reverse

/-- The name that a path gives a file, if it gives it one. -/
def fileName? (path : String) : Option String :=
  match (withoutIdleEnd (components path)).getLast? with
  | none => none
  | some name => if isIdle name || name == ".." then none else some name

/-- The names of the path of the folder that a path names a file in. -/
def folderNames (path : String) : List String :=
  withoutIdleEnd (withoutIdleEnd (components path)).dropLast

/-- Makes the folder that a path names a file in. -/
def ensureFolderOf (d : Directory) (path : String) : Directory × Except PathFault Place :=
  let folder := Place.path (folderNames path)
  if isInvalid folder then (d, .error .invalid)
  else if longestPath < folder.utf8ByteSize then (d, .error .pathTooLong)
  else d.ensureFolders (start path) (folderNames path)

/-- Making folders leaves every file as it is. -/
theorem getElem?_ensureFolders_file (d : Directory) (p : Place) (names : List String)
    {path content : String} (h : d[path]? = some (.file content)) :
    (d.ensureFolders p names).1[path]? = some (.file content) := by
  induction names generalizing d p with
  | nil => exact h
  | cons component rest ih =>
      rw [ensureFolders]
      split
      · exact h
      · next next _ =>
        split
        · exact ih d next h
        · exact h
        · exact h
        · next hn =>
          refine ih _ next ?_
          rw [getElem?_put]
          split
          · next hp =>
            unfold entry? at hn
            split at hn
            · cases hn
            · rw [hp, h] at hn
              cases hn
          · exact h

/-! ### Writing files -/

/-- The steps in which a file is put at its place by way of a file beside it. -/
inductive ReplaceStep
  | create
  | fill
  | move
  deriving DecidableEq, Repr

/-- What replacing a file depends on besides the directory. -/
structure Host where
  /-- The number of the process, which is part of the name of the file beside the place. -/
  process : Nat
  /-- Which steps the device refuses. -/
  refuses : ReplaceStep → Bool

/-- A host whose device refuses nothing. -/
def Host.usual : Host := ⟨10000, fun _ => false⟩

/-- The name of the file beside a file of a name. -/
def Host.temporaryName (host : Host) (name : String) : String :=
  "." ++ name ++ "." ++ toString host.process ++ ".tmp"

/-- The place of the file beside a file of a name in a folder. -/
def Host.beside (host : Host) (folder : Place) (name : String) : Place :=
  folder ++ [host.temporaryName name]

/-- The directory without what is at a place. -/
def remove (d : Directory) (p : Place) : Directory := d.erase p.path

/-- The directory without the file at a place; a folder stays there. -/
def removeFile (d : Directory) (p : Place) : Directory :=
  if d.entry? p = some .folder then d else d.remove p

/-- Makes an empty file of a name at a place, or empties the one that is there.  The path is how the
place is called. -/
def create (d : Directory) (host : Host) (path : String) (p : Place) (name : String) :
    Except PathFault Directory :=
  if isInvalid path then .error .invalid
  else if longestName < name.utf8ByteSize then .error .nameTooLong
  else if longestPath < path.utf8ByteSize then .error .pathTooLong
  else if host.refuses .create then .error .refused
  else
    match d.entry? p with
    | some .folder => .error .isAFolder
    | some .sink => .ok d
    | some (.file _) => .ok (d.put p (.file ""))
    | none => .ok (d.put p (.file ""))

/-- Writes a text into an empty file. -/
def fill (d : Directory) (host : Host) (p : Place) (content : String) :
    Except PathFault Directory :=
  if host.refuses .fill then .error .refused else .ok (d.append p content)

/-- Moves a file to another name in its folder, where it takes the place of a file that is there.
The path is how the new place is called. -/
def move (d : Directory) (host : Host) (source : Place) (path : String) (folder : Place)
    (name : String) : Except PathFault Directory :=
  if isInvalid path then .error .invalid
  else if longestPath < path.utf8ByteSize then .error .pathTooLong
  else if (components path).getLast? ≠ some name then .error .notAFolder
  else if host.refuses .move then .error .refused
  else if d.entry? (folder ++ [name]) = some .folder then .error .isAFolder
  else
    match d.entry? source with
    | none => .error .notFound
    | some e => .ok ((d.remove source).put (folder ++ [name]) e)

/-- Puts a complete file of a name into a folder by way of the file beside it.  If the device or the
path does not allow this, the file beside is removed, also where it was there before and the device
refuses to open it; a path under which no file can be opened is one under which none is removed. -/
def replaceIn (d : Directory) (host : Host) (path : String) (folder : Place)
    (name content : String) : Directory × Except PathFault Place :=
  let temporary := host.temporaryName name
  let p := host.beside folder name
  match d.create host (Place.path (folderNames path ++ [temporary])) p temporary with
  | .error .refused => (d.removeFile p, .error .refused)
  | .error fault => (d, .error fault)
  | .ok d =>
    match d.fill host p content with
    | .error fault => (d.remove p, .error fault)
    | .ok d =>
      match d.move host p path folder name with
      | .error fault => (d.remove p, .error fault)
      | .ok d => (d, .ok (folder ++ [name]))

/-- Puts a complete file at a path, whose folder is made if need be. -/
def replace (d : Directory) (host : Host) (path content : String) :
    Directory × Except PathFault Place :=
  match d.ensureFolderOf path with
  | (d, .error fault) => (d, .error fault)
  | (d, .ok folder) =>
    match fileName? path with
    | none => (d, .error .noFileName)
    | some name => d.replaceIn host path folder name content

/-- Writes a file at a path, whose folder is made if need be; nothing is written where no file can
be. -/
def write (d : Directory) (path content : String) : Directory :=
  let d := (d.ensureFolderOf path).1
  match d.openForAppend path with
  | .error _ => d
  | .ok (p, d) => if d.entry? p = some .sink then d else d.put p (.file content)

/-! ### Listing -/

/-- The files below the working directory, ordered by their paths. -/
def files (d : Directory) : List (String × String) :=
  d.toList.filterMap fun (path, entry) =>
    match entry with
    | .folder => none
    | .sink => none
    | .file content => if Place.isBelow (components path) then some (path, content) else none

end Directory

end VariadicMacros
