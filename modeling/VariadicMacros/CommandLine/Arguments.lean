/-
**The command line: its grammar, and the request that it spells.**

A command line is read argument by argument.  Options may stand before the command, where only
those that every command has are known, and after it.  An option that takes a value takes it from
the rest of its own argument or else from the next one, which must not look like an option.  After
the argument `--` everything is an operand.

Main definitions:

* `VariadicMacros.OptionName`, `VariadicMacros.OptionForm` — the options and how they are written;
* `VariadicMacros.Grammar` — what a command knows;
* `VariadicMacros.Given` — what was read so far, and `VariadicMacros.Grammar.step` — one argument;
* `VariadicMacros.Command`, `VariadicMacros.Request` — a command with its options;
* `VariadicMacros.Request.parse` — reads a command line.

Main results:

* `VariadicMacros.Request.parse_nil` — a command is required.
-/

set_option autoImplicit false

namespace VariadicMacros

/-! ### Options -/

/-- The options that commands have. -/
inductive OptionName
  | verbose
  | logFile
  | config
  | bound
  | stem
  | guard
  | out
  | stdout
  | source
  | define
  | json
  | help
  | version
  deriving DecidableEq, Repr

/-- How an option is written and what it takes. -/
structure OptionForm where
  name : OptionName
  /-- The word after two dashes. -/
  long : String
  /-- The letter after one dash. -/
  short : Option Char
  takesValue : Bool
  /-- The option may be given more than once. -/
  repeatable : Bool
  deriving DecidableEq, Repr

/-- Reads a natural number of 64 bits in decimal, which may have a plus sign. -/
def natural64? (text : String) : Option Nat :=
  let digits :=
    match text.toList with
    | '+' :: cs => cs
    | cs => cs
  if digits.isEmpty || !digits.all Char.isDigit then none
  else
    let n := digits.foldl (fun n c => n * 10 + (c.toNat - '0'.toNat)) 0
    if n ≤ 0xFFFFFFFFFFFFFFFF then some n else none

namespace OptionName

/-- Whether an option accepts a value: bounds are numbers, and paths are not empty. -/
def accepts (o : OptionName) (value : String) : Bool :=
  match o with
  | .bound => (natural64? value).isSome
  | .logFile => value != ""
  | .config => value != ""
  | .out => value != ""
  | .source => value != ""
  | _ => true

end OptionName

namespace OptionForm

/-- An option that is given without a value. -/
def flag (name : OptionName) (long : String) (short : Option Char) : OptionForm :=
  ⟨name, long, short, false, false⟩

/-- An option with a value that is given at most once. -/
def single (name : OptionName) (long : String) : OptionForm := ⟨name, long, none, true, false⟩

/-- The options of every command. -/
def common : List OptionForm :=
  [⟨.verbose, "verbose", some 'v', false, true⟩, single .logFile "log-file",
    flag .help "help" (some 'h')]

/-- The options of the commands that generate a header. -/
def header : List OptionForm :=
  [single .config "config", single .bound "max-arity", single .stem "prefix",
    single .guard "guard", single .out "out"]

end OptionForm

/-! ### Grammars -/

/-- What can be given at one level of a command line. -/
structure Grammar where
  options : List OptionForm
  takesOperand : Bool
  commands : List String
  deriving DecidableEq, Repr

/-- The names of the commands. -/
def commandNames : List String := ["generate", "check", "expand", "surface", "help"]

namespace Grammar

/-- What can be given before the command. -/
def top : Grammar :=
  ⟨OptionForm.common ++ [OptionForm.flag .version "version" (some 'V')], false, commandNames⟩

/-- What the command can be given that writes a header. -/
def generate : Grammar :=
  ⟨OptionForm.common ++ OptionForm.header ++ [OptionForm.flag .stdout "stdout" none], false, []⟩

/-- What the command can be given that compares a header. -/
def check : Grammar := ⟨OptionForm.common ++ OptionForm.header, false, []⟩

/-- What the command can be given that expands a text. -/
def expand : Grammar :=
  ⟨OptionForm.common ++ OptionForm.header ++
    [OptionForm.single .source "header", ⟨.define, "define", some 'D', true, true⟩], true, []⟩

/-- What the command can be given that lists a catalog. -/
def surface : Grammar :=
  ⟨OptionForm.common ++ OptionForm.header ++ [OptionForm.flag .json "json" none], false, []⟩

end Grammar

/-! ### Reading arguments -/

/-- What was given at one level so far. -/
structure Given where
  /-- The options with their values, the last one first; the value of a flag is empty. -/
  options : List (OptionName × String) := []
  /-- The option that waits for its value. -/
  awaiting : Option OptionForm := none
  operand : Option String := none
  /-- Only operands follow. -/
  operandsOnly : Bool := false
  deriving DecidableEq, Repr

/-- Where reading a level stops before its end. -/
inductive Halt
  | refused
  | help
  | version
  deriving DecidableEq, Repr

/-- What an argument does. -/
inductive Reading
  | halt (h : Halt)
  | continue (g : Given)
  | command (name : String)
  deriving DecidableEq, Repr

namespace Given

/-- Whether an option was given. -/
def has (g : Given) (o : OptionName) : Bool := g.options.any fun given => given.1 == o

/-- The value of an option that was given. -/
def value? (g : Given) (o : OptionName) : Option String := g.options.lookup o

/-- The values of an option in the order in which they were given. -/
def values (g : Given) (o : OptionName) : List String :=
  (g.options.reverse.filter fun given => given.1 == o).map Prod.snd

/-- How often an option was given. -/
def count (g : Given) (o : OptionName) : Nat := (g.values o).length

/-- Records an option with a value.  Asking for help or for the version halts at once. -/
def give (g : Given) (form : OptionForm) (value : String) : Except Halt Given :=
  if form.name = .help then .error .help
  else if form.name = .version then .error .version
  else if !form.repeatable && g.has form.name then .error .refused
  else if !form.name.accepts value then .error .refused
  else .ok { g with options := (form.name, value) :: g.options, awaiting := none }

/-- The reading that a recorded option is. -/
def reading : Except Halt Given → Reading
  | .error h => .halt h
  | .ok g => .continue g

end Given

/-- The name of a long option and the value attached to it by an equals sign. -/
def splitLong (cs : List Char) : String × Option String :=
  match cs.dropWhile (· != '=') with
  | [] => (String.ofList cs, none)
  | _ :: value => (String.ofList (cs.takeWhile (· != '=')), some (String.ofList value))

namespace Grammar

/-- Reads a long option, given the characters after its dashes. -/
def readLong (grammar : Grammar) (g : Given) (cs : List Char) : Reading :=
  let (word, attached) := splitLong cs
  match grammar.options.find? (fun form => form.long == word), attached with
  | none, _ => .halt .refused
  | some form, none =>
    if form.takesValue then .continue { g with awaiting := some form }
    else Given.reading (g.give form "")
  | some form, some value =>
    if form.takesValue then Given.reading (g.give form value) else .halt .refused

/-- Reads short options, given the characters after the dash.  The first option that takes a value
takes the rest of the characters, without an equals sign at their start. -/
def readShort (grammar : Grammar) (g : Given) : List Char → Reading
  | [] => .continue g
  | c :: cs =>
    match grammar.options.find? (fun form => form.short == some c) with
    | none => .halt .refused
    | some form =>
      if form.takesValue then
        match cs with
        | [] => .continue { g with awaiting := some form }
        | '=' :: value => Given.reading (g.give form (String.ofList value))
        | value => Given.reading (g.give form (String.ofList value))
      else
        match g.give form "" with
        | .error h => .halt h
        | .ok g => grammar.readShort g cs

/-- Reads an operand. -/
def readOperand (grammar : Grammar) (g : Given) (argument : String) : Reading :=
  if grammar.takesOperand && g.operand.isNone then .continue { g with operand := some argument }
  else .halt .refused

/-- Reads an argument that is not the value of an option before it. -/
def readFree (grammar : Grammar) (g : Given) (argument : String) : Reading :=
  if argument ∈ grammar.commands then .command argument
  else
    match argument.toList with
    | ['-', '-'] => .continue { g with operandsOnly := true }
    | '-' :: '-' :: cs => grammar.readLong g cs
    | '-' :: c :: cs => grammar.readShort g (c :: cs)
    | _ => grammar.readOperand g argument

/-- Reads one argument. -/
def step (grammar : Grammar) (g : Given) (argument : String) : Reading :=
  if g.operandsOnly then grammar.readOperand g argument
  else
    match g.awaiting with
    | none => grammar.readFree g argument
    | some form =>
      match argument.toList with
      | '-' :: _ :: _ => .halt .refused
      | _ => Given.reading (g.give form argument)

/-- Reads arguments up to the first command among them, which is returned with the arguments after
it. -/
def read (grammar : Grammar) (g : Given) :
    List String → Except Halt (Given × Option (String × List String))
  | [] => if g.awaiting.isSome then .error .refused else .ok (g, none)
  | argument :: rest =>
    match grammar.step g argument with
    | .halt h => .error h
    | .command name => .ok (g, some (name, rest))
    | .continue g => grammar.read g rest

end Grammar

/-! ### Requests -/

/-- The options of the commands that generate a header. -/
structure HeaderArguments where
  config : Option String
  bound : Option Nat
  stem : Option String
  guard : Option String
  out : Option String
  deriving DecidableEq, Repr

/-- What is asked for. -/
inductive Command
  /-- Write a header, or print it. -/
  | generate (header : HeaderArguments) (toStdout : Bool)
  /-- Compare a header with what would be written. -/
  | check (header : HeaderArguments)
  /-- Expand a text with the macros of a header or of a source file and further definitions. -/
  | expand (header : HeaderArguments) (source : Option String) (definitions : List String)
      (text : String)
  /-- List the macros of a header. -/
  | surface (header : HeaderArguments) (json : Bool)
  deriving DecidableEq, Repr

/-- A command with the options that every command has. -/
structure Request where
  verbosity : Nat
  logFile : Option String
  command : Command
  deriving DecidableEq, Repr

/-- The header options that were given. -/
def HeaderArguments.ofGiven (g : Given) : HeaderArguments :=
  ⟨g.value? .config, (g.value? .bound).bind natural64?, g.value? .stem, g.value? .guard,
    g.value? .out⟩

/-- What a command can be given. -/
def Grammar.ofCommand? : String → Option Grammar
  | "generate" => some .generate
  | "check" => some .check
  | "expand" => some .expand
  | "surface" => some .surface
  | _ => none

/-- The command that was given.  Printing a header excludes a place to write it to, and there has
to be a text to expand. -/
def Command.ofGiven? (name : String) (g : Given) : Option Command :=
  let header := HeaderArguments.ofGiven g
  match name with
  | "generate" =>
    if g.has .stdout && g.has .out then none else some (.generate header (g.has .stdout))
  | "check" => some (.check header)
  | "expand" => g.operand.map fun text =>
      .expand header (g.value? .source) (g.values .define) text
  | "surface" => some (.surface header (g.has .json))
  | _ => none

namespace Request

/-- Reads the arguments of a command; the options before it hold where it has none of its own. -/
def ofCommand (before : Given) (name : String) (arguments : List String) : Except Halt Request :=
  match Grammar.ofCommand? name with
  | none =>
    match arguments with
    | [] => .error .help
    | [about] => if about ∈ commandNames then .error .help else .error .refused
    | _ => .error .refused
  | some grammar =>
    match grammar.read {} arguments with
    | .error h => .error h
    | .ok (g, _) =>
      match Command.ofGiven? name g with
      | none => .error .refused
      | some command =>
        let verbosity := if g.has .verbose then g.count .verbose else before.count .verbose
        .ok ⟨verbosity, (g.value? .logFile).or (before.value? .logFile), command⟩

/-- Reads a command line. -/
def parse (arguments : List String) : Except Halt Request :=
  match Grammar.top.read {} arguments with
  | .error h => .error h
  | .ok (_, none) => .error .refused
  | .ok (before, some (name, rest)) => ofCommand before name rest

/-- A command is required. -/
theorem parse_nil : parse [] = .error .refused := rfl

end Request

end VariadicMacros
