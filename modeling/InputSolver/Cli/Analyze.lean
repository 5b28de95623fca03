/-
  InputSolver — the commands on one program.

  `show`, `solve` and `check` take the text of a program, or the reason why
  it cannot be read.
-/
import InputSolver.Cli.Command
import InputSolver.Cli.Report
import InputSolver.Expr.Text
import InputSolver.Program.Load
import InputSolver.Program.Parse
import InputSolver.Program.Run
import InputSolver.Search.Parallel.Pool

namespace InputSolver.Cli

/-- The text of a program, or why it cannot be read. -/
abbrev Source := Except String String

/-- Reads the program at a path. -/
def readProgram (path : String) (source : Source) : Except ProgramError Program :=
  match source with
  | .ok text => Program.ofText text
  | .error reason => .error (.unreadable path reason)

/-- Answers with the result of a computation on a new graph. -/
def onNewGraph (x : GraphM Answer) : Answer :=
  match x.result with
  | .ok a => a
  | .error _ => .faulted

/-- Answers with what is made of a program, or with the error in it. -/
def withProgram (path : String) (source : Source) (f : Program → Answer) : Answer :=
  match readProgram path source with
  | .ok p => f p
  | .error e => .error e.text

/-! ## Showing -/

/-- The lines on one register. -/
def showRegister (pretty : Bool) (r : Register) (e : Expr) : Except Fault (List String) := do
  let lines := if pretty then [r.text ++ ":", e.pretty "  "] else [r.text ++ ": " ++ e.text]
  let range ← e.range
  return lines ++ ["  range: " ++ range.text ++ ", inputs: " ++ toString e.inputIndices.length ++
    ", nodes: " ++ toString e.nodeCount]

def runShow (options : ShowOptions) (source : Source) : Answer :=
  withProgram options.path source fun p => onNewGraph do
    let m ← p.load
    let registers := match options.register? with
      | some r => [r]
      | none => Register.all
    let lines ← registers.mapM fun r => (showRegister options.pretty r (m.registers.get r) : GraphM _)
    return .success lines.flatten

/-! ## Solving -/

/-- The number of workers, if more than one is to be used. -/
def workerCount? : Option Nat → Option Parallel.WorkerCount
  | none => none
  | some n => if n = 1 then none else some (.ofNat n)

/-- Searches as asked for; only the backtracking search uses workers. -/
def searchWith (options : SolveOptions) (e : Expr) : GraphM (Except EvalError SearchResult) :=
  match options.config.algorithm, workerCount? options.jobs? with
  | .backtracking, some count => do
    return (← Parallel.search options.config e count).map (·.result)
  | _, _ => runSearch (options.config.search e)

/-- The answer to a search in a program with some inputs. -/
def solveAnswer (options : SolveOptions) (inputs : Nat) (result : SearchResult) :
    Except Fault Answer := do
  let statistics? := if options.statistics then some result.statistics else none
  match result.solution? with
  | some s =>
    let complete ← s.complete inputs options.config.direction
    return { Answer.success [complete.modelNumber] with statistics? }
  | none =>
    let text := "No assignment drives " ++ options.config.register.text ++ " to " ++
      Word.text options.config.target
    return { exit := 2, statistics?, output := [], errors := [text] }

def runSolve (options : SolveOptions) (source : Source) : Answer :=
  withProgram options.path source fun p => onNewGraph do
    let m ← p.load
    match ← searchWith options (m.registers.get options.config.register) with
    | .error e => return .error e.message
    | .ok result => solveAnswer options m.inputsRead result

/-! ## Checking -/

/-- The digits in a text; white space and underscores may stand between
    them. -/
def readDigits (text : String) : Except String (List Word) :=
  (text.toList.filter fun c => !Text.isBlank c && c != '_').mapM fun c =>
    match Text.digit? c with
    | some 0 | none => .error ("Invalid digit '" ++ c.toString ++ "': expected 1-9")
    | some d => .ok (Int64.ofNat d)

/-- The answer to running a program on digits. -/
def checkDigits (options : CheckOptions) (p : Program) (digits : List Word) : Answer :=
  if digits.length ≠ p.inputCount then
    .error ("program reads " ++ toString p.inputCount ++ " inputs but " ++
      toString digits.length ++ " digits were given")
  else
    match p.run digits with
    | .error e => .error e.message
    | .ok m =>
      let value := m.registers.get options.register
      let valid := value = options.target
      let verdict := options.register.text ++ " = " ++ Word.text value ++ ": " ++
        (if valid then "valid" else "invalid")
      { exit := if valid then 0 else 2, statistics? := none, output := [m.text, verdict],
        errors := [] }

def runCheck (options : CheckOptions) (source : Source) : Answer :=
  withProgram options.path source fun p =>
    match readDigits options.digits with
    | .error text => .error text
    | .ok digits => checkDigits options p digits

end InputSolver.Cli
