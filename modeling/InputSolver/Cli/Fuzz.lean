/-
  InputSolver — the command `fuzz`.

  Random programs are loaded and run on digits at the edges and at random:
  every register's expression must evaluate to what the register holds, which
  must be in its range.  Then both searches look for what `z` holds on random
  digits: they must find the same solution.  Each difference is a failure.
-/
import InputSolver.Cli.Analyze
import InputSolver.Generate.Pairs
import InputSolver.Generate.Programs

namespace InputSolver.Cli.Fuzz

/-- What was counted, the mismatches found, and the random stream. -/
structure Progress where
  programs : Nat
  assignments : Nat
  searches : Nat
  failures : Nat
  mismatches : List String
  generator : Random.Generator

/-- Computations of the command. -/
abbrev FuzzM := StateT Progress (Except Fault)

/-- Draws from the random stream. -/
def draw {α : Type} (x : StateM Random.Generator α) : FuzzM α :=
  modifyGet fun p =>
    let (a, generator) := x.run p.generator
    (a, { p with generator })

/-- Notes a mismatch and the program that shows it. -/
def fail (program : Program) (text : String) : FuzzM Unit :=
  modify fun p => { p with
    failures := p.failures + 1
    mismatches := p.mismatches ++ ("mismatch: " ++ text) :: program.map ("  " ++ ·.text) }

/-! ## Values as text -/

def errorText : EvalError → String
  | .unboundInput index => "UnboundInput(" ++ toString index ++ ")"
  | .divisionByZero => "DivisionByZero"

/-- A value, or the error in its place. -/
def resultText {α : Type} (text : α → String) : Except EvalError α → String
  | .ok a => "Ok(" ++ text a ++ ")"
  | .error e => "Err(" ++ errorText e ++ ")"

def listText (texts : List String) : String := "[" ++ String.intercalate ", " texts ++ "]"

/-- What a search found. -/
def outcomeText : Option Solution → String
  | none => "Exhausted"
  | some s =>
    "Solved(Solution \x7b inputs: " ++ listText (s.inputs.map toString) ++ ", digits: " ++
      listText (s.digits.map Word.text) ++ " \x7d)"

/-! ## Loading against running -/

/-- The first mismatch between the expressions of registers and a machine
    that was run under an assignment. -/
def mismatch? (a : Assignment) (m : Machine Word) :
    List (Register × Expr) → Except Fault (Option String)
  | [] => return none
  | (r, e) :: rest => do
    let expected := m.registers.get r
    let value := e.evaluate a
    if value.toOption ≠ some expected then
      return some (r.text ++ " under " ++ a.text ++ ": " ++ resultText Word.text value ++
        ", expected " ++ Word.text expected)
    let range ← e.range
    if !range.includes expected then
      return some (r.text ++ " range " ++ range.text ++ " misses " ++ Word.text expected ++
        " under " ++ a.text)
    mismatch? a m rest

/-- Compares loading with running on some lists of digits, up to the first
    mismatch. -/
def compareRuns (program : Program) (loaded : Machine Expr) : List (List Word) → FuzzM Unit
  | [] => return ()
  | digits :: rest => do
    match program.run digits with
    | .error _ => compareRuns program loaded rest
    | .ok m =>
      modify fun p => { p with assignments := p.assignments + 1 }
      match ← mismatch? (.ofDigits digits) m loaded.registers.toList with
      | some text => fail program text
      | none => compareRuns program loaded rest

/-- Loads a program into a new graph. -/
def loadNew (program : Program) : Except Fault (Machine Expr × Graph) := program.load.runOn .empty

def checkRuns (program : Program) (inputs : Nat) : FuzzM Unit := do
  let (loaded, _) ← loadNew program
  let random ← draw (Generate.repeated (Generate.randomDigits Random.chaCha inputs) 8)
  compareRuns program loaded (Generate.edgeDigits inputs ++ random)

/-! ## One search against the other -/

/-- Whether two searches found the same solution. -/
def sameSolution : Except EvalError (Option Solution) → Except EvalError (Option Solution) → Bool
  | .ok (some s), .ok (some t) => s = t
  | _, _ => false

/-- Compares the searches for a target in each direction, up to the first
    mismatch. -/
def compareSearches (program : Program) (e : Expr) (target : Word) :
    List Direction → Graph → FuzzM Unit
  | [], _ => return ()
  | direction :: rest, graph => do
    let q : Backtrack.Query := ⟨e, target, direction, .constant false⟩
    let (pruned, graph) ← (runSearch (Backtrack.search q)).runOn graph
    let (brute, graph) ← (runSearch (Exhaustive.search q)).runOn graph
    modify fun p => { p with searches := p.searches + 1 }
    let pruned := pruned.map (·.solution?)
    let brute := brute.map (·.solution?)
    if sameSolution pruned brute then
      compareSearches program e target rest graph
    else
      fail program (direction.text ++ " search for z = " ++ Word.text target ++ ": pruned " ++
        resultText outcomeText pruned ++ ", exhaustive " ++ resultText outcomeText brute)

def checkSearches (program : Program) (inputs : Nat) : FuzzM Unit := do
  let digits ← draw (Generate.randomDigits Random.chaCha inputs)
  match program.run digits with
  | .error _ => return ()
  | .ok m =>
    let (loaded, graph) ← loadNew program
    compareSearches program loaded.registers.z m.registers.z [.largest, .smallest] graph

/-! ## The command -/

def checkProgram (program : Program) (inputs : Nat) : FuzzM Unit := do
  modify fun p => { p with programs := p.programs + 1 }
  checkRuns program inputs
  checkSearches program inputs

/-- Checks a program of matched pairs. -/
def checkPairs (pairs : Nat) : FuzzM Unit := do
  let blocks ← draw (Generate.randomBlocks Random.chaCha pairs)
  checkProgram (Generate.blocksProgram blocks) (pairs * 2)

/-- Checks random programs, then programs of one and of two matched pairs. -/
def checkAll (shape : Generate.ProgramShape) (programs : List Program) : FuzzM Unit := do
  programs.forM fun program => checkProgram program shape.inputs
  [1, 2].forM checkPairs

/-- The answer once all is checked. -/
def answer (p : Progress) : Answer :=
  let output := ["fuzz: " ++ toString p.programs ++ " programs, " ++ toString p.assignments ++
    " assignments, " ++ toString p.searches ++ " searches, " ++ toString p.failures ++ " failures"]
  if p.failures = 0 then .success output
  else
    { exit := 1, statistics? := none, output,
      errors := p.mismatches ++ ["Error: " ++ toString p.failures ++ " mismatches found"] }

/-- The seed of the digits, which differs from that of the programs. -/
def digitSeed (seed : UInt64) : UInt64 := seed ^^^ 0x9e3779b97f4a7c15

/-- Runs the command on the programs of a seed. -/
def run (options : FuzzOptions) (seed : UInt64) : Answer :=
  let shape := (Generate.ProgramShape.standard.withLength options.length).withInputs options.inputs
  let programs := Generate.randomPrograms shape seed options.count
  match (checkAll shape programs).run ⟨0, 0, 0, 0, [], .ofSeed (digitSeed seed)⟩ with
  | .ok (_, p) => answer p
  | .error _ => .faulted

end InputSolver.Cli.Fuzz
