/-
  InputSolver — what a command answers.

  An `Answer` is complete but for the time that a search took; `Answer.report`
  puts the time in.  The exit status is 0 for success, 1 for an error and 2
  for a search without a solution or a check that fails.
-/
import InputSolver.Search.Statistics

namespace InputSolver.Cli

/-- What a command writes, and its exit status. -/
structure Report where
  exit : Nat
  output : String
  errors : String
  deriving DecidableEq

/-- What a command answers; statistics go before the rest of the output. -/
structure Answer where
  exit : Nat
  statistics? : Option Statistics
  output : List String
  errors : List String

namespace Answer

/-- Lines of output, and success. -/
def success (output : List String) : Answer := ⟨0, none, output, []⟩

/-- An error with its text. -/
def error (text : String) : Answer := ⟨1, none, [], ["Error: " ++ text]⟩

/-- The exit status of a computation without an answer. -/
def faulted : Answer := ⟨101, none, [], []⟩

/-- Lines of text, each with its end. -/
def unlines (lines : List String) : String := String.join (lines.map (· ++ "\n"))

/-- The report of a command that took some time. -/
def report (a : Answer) (nanoseconds : Nat) : Report where
  exit := a.exit
  output :=
    (match a.statistics? with
      | some s => unlines [{ s with nanoseconds }.summary]
      | none => "") ++ unlines a.output
  errors := unlines a.errors

end Answer

end InputSolver.Cli
