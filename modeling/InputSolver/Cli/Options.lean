/-
  InputSolver — options on a command line.

  A command line holds options and positional values in any order.  An option
  has a long name, `--name`, and may have a short one, `-n`; one that takes a
  value has it after `=`, after the short name at once, or as the next
  argument.  After `--` everything is positional.

  * `scan` sorts the arguments by a list of `OptionSpec`; it refuses unknown
    and repeated options and missing values.
-/
namespace InputSolver.Cli

/-- An option that a command knows. -/
structure OptionSpec where
  long : String
  short? : Option Char
  takesValue : Bool
  /-- whether the value may start with a hyphen, as a negative number does -/
  hyphenValue : Bool

namespace OptionSpec

/-- An option without a value. -/
def flag (long : String) (short? : Option Char) : OptionSpec := ⟨long, short?, false, false⟩

/-- An option with a value. -/
def value (long : String) (short? : Option Char) : OptionSpec := ⟨long, short?, true, false⟩

/-- An option whose value may be negative. -/
def signed (long : String) (short? : Option Char) : OptionSpec := ⟨long, short?, true, true⟩

/-- Whether an argument of its own can be the value. -/
def accepts (spec : OptionSpec) (arg : String) : Bool :=
  spec.hyphenValue ||
    match arg.toList with
    | '-' :: _ :: _ => false
    | _ => true

end OptionSpec

/-- The options that were given, with their values, and the positional
    values. -/
structure Scan where
  given : List (String × String)
  positional : List String

namespace Scan

/-- Adds an option that was not given before. -/
def add? (s : Scan) (spec : OptionSpec) (value : String) : Option Scan :=
  if s.given.any fun g => g.1 == spec.long then none
  else some { s with given := s.given ++ [(spec.long, value)] }

def addPositional (s : Scan) (args : List String) : Scan :=
  { s with positional := s.positional ++ args }

/-- The value of an option, if it was given. -/
def get? (s : Scan) (long : String) : Option String := s.given.lookup long

/-- Whether an option was given. -/
def has (s : Scan) (long : String) : Bool := (s.get? long).isSome

end Scan

/-- Reads short options in one argument; the last of them may still need its
    value. -/
def scanShort (specs : List OptionSpec) : List Char → Scan → Option (Scan × Option OptionSpec)
  | [], s => some (s, none)
  | c :: cs, s => do
    let spec ← specs.find? fun spec => spec.short? == some c
    if spec.takesValue then
      match cs with
      | [] => return (s, some spec)
      | '=' :: value => return (← s.add? spec (String.ofList value), none)
      | value => return (← s.add? spec (String.ofList value), none)
    else scanShort specs cs (← s.add? spec "")

/-- The name and the value in a long option. -/
def splitLong (cs : List Char) : String × Option String :=
  (String.ofList (cs.takeWhile (· ≠ '=')),
    match cs.dropWhile (· ≠ '=') with
    | [] => none
    | _ :: value => some (String.ofList value))

/-- Reads a long option; it may still need its value. -/
def scanLong (specs : List OptionSpec) (cs : List Char) (s : Scan) :
    Option (Scan × Option OptionSpec) := do
  let (name, value?) := splitLong cs
  let spec ← specs.find? fun spec => spec.long == name
  match spec.takesValue, value? with
  | false, none => return (← s.add? spec "", none)
  | false, some _ => none
  | true, some value => return (← s.add? spec value, none)
  | true, none => return (s, some spec)

/-- Reads one argument; the option in it may still need its value. -/
def scanArgument (specs : List OptionSpec) (arg : String) (s : Scan) :
    Option (Scan × Option OptionSpec) :=
  match arg.toList with
  | '-' :: '-' :: cs => scanLong specs cs s
  | '-' :: c :: cs => scanShort specs (c :: cs) s
  | _ => some (s.addPositional [arg], none)

/-- Sorts arguments into options and positional values. -/
def scan (specs : List OptionSpec) : List String → Scan → Option Scan
  | [], s => some s
  | arg :: rest, s =>
    if arg = "--" then some (s.addPositional rest)
    else
      match scanArgument specs arg s with
      | none => none
      | some (s, none) => scan specs rest s
      | some (s, some spec) =>
        match rest with
        | [] => none
        | value :: rest =>
          if spec.accepts value then (s.add? spec value).bind (scan specs rest) else none

end InputSolver.Cli
