/-
  InputSolver — commands.

  * `show` writes the expressions of the registers of a program;
  * `solve` searches for the inputs that leave a target in a register;
  * `check` runs a program on given digits;
  * `fuzz` compares loading, ranges and searches with running, on random
    programs.

  `Command.ofArguments?` reads a command line.
-/
import InputSolver.Cli.Options
import InputSolver.Search.Config
import InputSolver.Text.Number

namespace InputSolver.Cli

/-- What `show` is asked for. -/
structure ShowOptions where
  path : String
  register? : Option Register
  pretty : Bool

/-- What `solve` is asked for. -/
structure SolveOptions where
  path : String
  config : SearchConfig
  /-- the number of workers, if given; 0 leaves the number open -/
  jobs? : Option Nat
  statistics : Bool

/-- What `check` is asked for. -/
structure CheckOptions where
  path : String
  digits : String
  register : Register
  target : Word

/-- What `fuzz` is asked for. -/
structure FuzzOptions where
  count : Nat
  seed? : Option UInt64
  length : Nat
  inputs : Nat

inductive Command where
  | «show» (options : ShowOptions)
  | solve (options : SolveOptions)
  | check (options : CheckOptions)
  | fuzz (options : FuzzOptions)

/-! ## Values of options -/

/-- A value of an option, or a default if the option is not given. -/
def valueOr {α : Type} (s : Scan) (long : String) (read : String → Option α) (default : α) :
    Option α :=
  match s.get? long with
  | some text => read text
  | none => some default

/-- A value of an option, if the option is given. -/
def value? {α : Type} (s : Scan) (long : String) (read : String → Option α) : Option (Option α) :=
  valueOr s long (fun text => some <$> read text) none

def readWord (text : String) : Option Word := (Word.ofText text.toList).toOption

def readNat (text : String) : Option Nat := (Text.natOfText (Word.countBound - 1) text.toList).toOption

def readSeed (text : String) : Option UInt64 := UInt64.ofNat <$> readNat text

/-- Reads the full name of an algorithm, in lower case. -/
def readAlgorithm (text : String) : Option Algorithm :=
  [Algorithm.backtracking, .exhaustive].find? fun a => a.text == text

/-- A path, which is not empty. -/
def readPath (text : String) : Option String := if text = "" then none else some text

/-! ## Reading a command line -/

def verbose : OptionSpec := .flag "verbose" (some 'v')
def register : OptionSpec := .value "register" (some 'r')
def target : OptionSpec := .signed "target" none

def readShow (args : List String) : Option Command := do
  let s ← scan [verbose, register, .flag "pretty" none] args ⟨[], []⟩
  let [path] := s.positional | none
  return .show ⟨← readPath path, ← value? s "register" Register.ofText?, s.has "pretty"⟩

def readSolve (args : List String) : Option Command := do
  let s ← scan [verbose, register, target, .flag "smallest" none, .value "algorithm" none,
    .value "jobs" (some 'j'), .flag "stats" none] args ⟨[], []⟩
  let [path] := s.positional | none
  let config : SearchConfig :=
    { target := ← valueOr s "target" readWord 0
      direction := if s.has "smallest" then .smallest else .largest
      register := ← valueOr s "register" Register.ofText? .z
      algorithm := ← valueOr s "algorithm" readAlgorithm .backtracking }
  return .solve ⟨← readPath path, config, ← value? s "jobs" readNat, s.has "stats"⟩

def readCheck (args : List String) : Option Command := do
  let s ← scan [verbose, register, target] args ⟨[], []⟩
  let [path, digits] := s.positional | none
  return .check ⟨← readPath path, digits, ← valueOr s "register" Register.ofText? .z,
    ← valueOr s "target" readWord 0⟩

def readFuzz (args : List String) : Option Command := do
  let s ← scan [verbose, .value "count" none, .value "seed" none, .value "length" none,
    .value "inputs" none] args ⟨[], []⟩
  let [] := s.positional | none
  return .fuzz ⟨← valueOr s "count" readNat 200, ← value? s "seed" readSeed,
    ← valueOr s "length" readNat 16, ← valueOr s "inputs" readNat 3⟩

namespace Command

/-- Reads a command after the options that all commands share. -/
def ofNameAndArguments? : List String → Option Command
  | "show" :: args => readShow args
  | "solve" :: args => readSolve args
  | "check" :: args => readCheck args
  | "fuzz" :: args => readFuzz args
  | _ => none

/-- Reads a command line. -/
def ofArguments? : List String → Option Command
  | "-v" :: args | "--verbose" :: args => ofNameAndArguments? args
  | args => ofNameAndArguments? args

/-- The path of the program that a command is about. -/
def path? : Command → Option String
  | .show options => some options.path
  | .solve options => some options.path
  | .check options => some options.path
  | .fuzz _ => none

end Command

end InputSolver.Cli
