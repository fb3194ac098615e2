/-
**Settings of a run: arguments before the file, the file before the defaults.**

Every setting is taken from the command line if it is given there, else from the configuration
file, else from the defaults.

Main definitions:

* `VariadicMacros.ConfigFile` — what a configuration file sets, and `ConfigFile.ofText?`;
* `VariadicMacros.Settings` — the settings of a run, and `Settings.combine`.

Main results:

* `VariadicMacros.Settings.combine_empty` — without arguments and file the defaults hold.
-/

import VariadicMacros.CommandLine.Arguments
import VariadicMacros.CommandLine.Toml
import VariadicMacros.Header.Options

set_option autoImplicit false

namespace VariadicMacros

/-- The configuration file that is read if none is named and it exists. -/
def defaultConfig : String := "vaforge.toml"

/-- Where a header is written unless another place is given. -/
def defaultOut : String := "include/zen/macros.h"

/-! ### Configuration files -/

/-- What a configuration file sets. -/
structure ConfigFile where
  bound : Option Nat := none
  stem : Option String := none
  guard : Option String := none
  out : Option String := none
  deriving DecidableEq, Repr

namespace ConfigFile

/-- Takes over a key; there is no result for a key or a value that is not known. -/
def set? (f : ConfigFile) (key : String) (value : Toml.Value) : Option ConfigFile :=
  match key, value with
  | "max_arity", .integer n => if 0 ≤ n then some { f with bound := some n.toNat } else none
  | "prefix", .text s => some { f with stem := some s }
  | "guard", .text s => some { f with guard := some s }
  | "out", .text s => some { f with out := some s }
  | _, _ => none

/-- Takes over the keys of a document. -/
def setAll? (f : ConfigFile) : List (String × Toml.Value) → Option ConfigFile
  | [] => some f
  | (key, value) :: rest =>
    match f.set? key value with
    | none => none
    | some f => f.setAll? rest

/-- Reads a configuration file. -/
def ofText? (text : String) : Option ConfigFile :=
  match Toml.document? text with
  | none => none
  | some keys => setAll? {} keys

end ConfigFile

/-! ### Settings -/

/-- The settings of a run. -/
structure Settings where
  options : Options
  /-- Where the header is. -/
  out : String
  deriving DecidableEq, Repr

namespace Settings

/-- Arguments before the file, and the file before the defaults. -/
def combine (a : HeaderArguments) (f : ConfigFile) : Settings :=
  let default : Options := {}
  { options :=
      { bound := (a.bound.or f.bound).getD default.bound
        stem := (a.stem.or f.stem).getD default.stem
        guard := (a.guard.or f.guard).getD default.guard }
    out := (a.out.or f.out).getD defaultOut }

/-- Without arguments and file the defaults hold. -/
theorem combine_empty (config : Option String) :
    combine ⟨config, none, none, none, none⟩ {} = ⟨{}, defaultOut⟩ := rfl

end Settings

end VariadicMacros
