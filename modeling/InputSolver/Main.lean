/-
  InputSolver — the program.

  Reads the command line, the program text that it names, and the clock, and
  writes the report.
-/
import InputSolver.Cli.Run

namespace InputSolver.Cli

/-- The text of a file, or why it cannot be read. -/
def readSource (path : String) : IO Source := do
  try
    return .ok (← IO.FS.readFile path)
  catch
    | .noFileOrDirectory .. => return .error "No such file or directory (os error 2)"
    | e => return .error (toString e)

/-- A seed from the system. -/
def systemSeed : IO UInt64 := do
  let bytes ← IO.getRandomBytes 8
  return bytes.data.toList.foldl (fun seed b => seed * 256 + b.toUInt64) 0

/-- Carries out a command. -/
def runCommand (command : Command) : IO Report := do
  let source ← match command.path? with
    | some path => readSource path
    | none => pure (.ok "")
  let seed ← systemSeed
  let start ← IO.monoNanosNow
  let answer ← IO.lazyPure fun _ => command.answer source seed
  let finish ← IO.monoNanosNow
  return answer.report (finish - start)

end InputSolver.Cli

def main (args : List String) : IO UInt32 := do
  let report ← match InputSolver.Cli.Command.ofArguments? args with
    | some command => InputSolver.Cli.runCommand command
    | none => pure InputSolver.Cli.usage
  IO.print report.output
  IO.eprint report.errors
  return report.exit.toUInt32
