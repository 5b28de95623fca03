/-
  InputSolver — running a command line.

  * `Command.answer` is what a command answers, given the text of its program
    and a seed for `fuzz` if none is asked for;
  * `usage` is the answer to a command line that cannot be read.
-/
import InputSolver.Cli.Fuzz

namespace InputSolver.Cli

/-- What a command answers. -/
def Command.answer (source : Source) (defaultSeed : UInt64) : Command → Answer
  | .show options => runShow options source
  | .solve options => runSolve options source
  | .check options => runCheck options source
  | .fuzz options => Fuzz.run options (options.seed?.getD defaultSeed)

/-- How to call the program. -/
def usageLines : List String :=
  ["Usage: show PROGRAM [--register R] [--pretty]",
    "       solve PROGRAM [--smallest] [--target N] [--register R] [--algorithm A] [--jobs N] " ++
      "[--stats]",
    "       check PROGRAM DIGITS [--register R] [--target N]",
    "       fuzz [--count N] [--seed N] [--length N] [--inputs N]"]

/-- The report on a command line that cannot be read. -/
def usage : Report := ⟨2, "", Answer.unlines usageLines⟩

end InputSolver.Cli
