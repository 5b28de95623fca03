/-
  InputSolver — searching digit by digit.

  The inputs of an expression get their digits in order of position, the
  preferred digit first.  After each digit the expression is simplified under
  the digits so far; where the target is out of its range, no further digits
  can reach it and the next digit is tried.  A full assignment is accepted
  only if the whole expression evaluates to the target under it.

  * `Backtrack.descend` is the search below an assignment;
  * `Backtrack.searchFrom` searches with the first digits given, and
    `Backtrack.search` with none, from fresh statistics.

  A search may be stopped: it asks a flag before every digit.
-/
import InputSolver.Expr.Evaluate
import InputSolver.Expr.Walk
import InputSolver.Normal.Graph
import InputSolver.Search.Statistics

namespace InputSolver

/-- A flag that asks searches to stop: its state at one reading after the
    other. -/
abbrev StopFlag := Nat → Bool

namespace StopFlag

/-- A flag that stays as it is. -/
def constant (stop : Bool) : StopFlag := fun _ => stop

end StopFlag

/-- Where a search stands: the graph, the counters, and how often the stop
    flag was read. -/
structure Progress where
  graph : Graph
  statistics : Statistics
  readings : Nat

/-- Computations of a search. -/
abbrev SearchM := ExceptT EvalError (ExceptT Fault (StateM Progress))

namespace SearchM

/-- A computation on the graph. -/
def onGraph {α : Type} (x : GraphM α) : SearchM α :=
  ExceptT.lift <| ExceptT.mk fun ⟨graph, statistics, readings⟩ =>
    let (result, graph) := x.run.run graph
    (result, ⟨graph, statistics, readings⟩)

/-- A computation that only can fail. -/
def faulty {α : Type} (x : Except Fault α) : SearchM α := ExceptT.lift (ExceptT.mk (pure x))

/-- Changes the counters. -/
def count (f : Statistics → Statistics) : SearchM Unit :=
  modify fun p => { p with statistics := f p.statistics }

/-- Counts an assignment that is tried. -/
def countVisit : SearchM Unit := count fun s => { s with visited := s.visited + 1 }

/-- Counts an assignment that is left out. -/
def countPruned : SearchM Unit := count fun s => { s with pruned := s.pruned + 1 }

/-- Counts an exact check. -/
def countCheck : SearchM Unit := count fun s => { s with exactChecks := s.exactChecks + 1 }

/-- Notes that the search was stopped. -/
def markInterrupted : SearchM Unit := count fun s => { s with interrupted := true }

/-- Reads the stop flag. -/
def readFlag (stop : StopFlag) : SearchM Bool :=
  modifyGet fun p => (stop p.readings, { p with readings := p.readings + 1 })

end SearchM

namespace Backtrack

/-- A question to a search. -/
structure Query where
  expr : Expr
  target : Word
  direction : Direction
  stop : StopFlag

/-- A full assignment, if the expression evaluates to the target under it.
    One that divides by zero is no answer. -/
def exactCheck (q : Query) (a : Assignment) : SearchM (Option Assignment) := do
  SearchM.countCheck
  match q.expr.evaluate a with
  | .ok value => if value = q.target then return some a else return none
  | .error .divisionByZero => return none
  | .error (.unboundInput index) => throw (.unboundInput index)

/-- The simplified expression under an assignment, unless the target is out
    of its range. -/
def narrowed? (q : Query) (current : Expr) (a : Assignment) : SearchM (Option Expr) := do
  SearchM.countVisit
  let simplified ← SearchM.onGraph (GraphM.simplify a current)
  if (← SearchM.faulty simplified.range).includes q.target then return some simplified
  else
    SearchM.countPruned
    return none

/-- Tries digits for the input at `index`, and for each that may reach the
    target all that `below` finds. -/
def tryDigits (q : Query) (below : Expr → Assignment → SearchM (Option Assignment)) (index : Nat)
    (current : Expr) (a : Assignment) : List Word → SearchM (Option Assignment)
  | [] => return none
  | digit :: digits => do
    if ← SearchM.readFlag q.stop then
      SearchM.markInterrupted
      return none
    else
      let extended := a.bind index digit
      match ← narrowed? q current extended with
      | none => tryDigits q below index current a digits
      | some simplified =>
        match ← below simplified extended with
        | some found => return some found
        | none => tryDigits q below index current a digits

/-- The first full assignment that extends `a` to some more positions and
    reaches the target.  `current` is the expression simplified under `a`. -/
def descend (q : Query) : (positions : List Nat) → Expr → Assignment →
    SearchM (Option Assignment)
  | [], _, a => exactCheck q a
  | index :: positions, current, a =>
    tryDigits q (descend q positions) index current a q.direction.digits

/-- The first solution whose leading digits are given; there may be more of
    them than inputs.  Counters go on from where they are. -/
def searchFrom (q : Query) (leading : List Word) : SearchM (Option Solution) := do
  let positions := q.expr.inputIndices
  let fixed := positions.zip leading
  let a := Assignment.ofPairs fixed
  let start ← if fixed.isEmpty then pure (some q.expr) else narrowed? q q.expr a
  match start with
  | none => return none
  | some current =>
    return (← descend q (positions.drop fixed.length) current a).map .ofAssignment

/-- Forgets what was counted. -/
def reset : SearchM Unit := SearchM.count fun _ => .zero .backtracking

/-- The first solution, from fresh counters. -/
def search (q : Query) : SearchM SearchResult := do
  reset
  let solution? ← searchFrom q []
  return ⟨solution?, (← get).statistics⟩

end Backtrack

end InputSolver
