/-
  InputSolver — searching through all assignments.

  The digits of the inputs are counted up like an odometer, the preferred
  digits first and the last input fastest, until the expression evaluates to
  the target.
-/
import InputSolver.Search.Backtrack

namespace InputSolver.Exhaustive

/-- A full assignment, if the expression evaluates to the target under it. -/
def check (q : Backtrack.Query) (a : Assignment) : SearchM (Option Assignment) := do
  SearchM.countVisit
  Backtrack.exactCheck q a

/-- Tries digits for the input at `index`, each with all that `below` finds. -/
def tryDigits (below : Assignment → SearchM (Option Assignment)) (index : Nat) (a : Assignment) :
    List Word → SearchM (Option Assignment)
  | [] => return none
  | digit :: digits => do
    match ← below (a.bind index digit) with
    | some found => return some found
    | none => tryDigits below index a digits

/-- The first full assignment that extends `a` to some more positions and
    reaches the target. -/
def enumerate (q : Backtrack.Query) : (positions : List Nat) → Assignment →
    SearchM (Option Assignment)
  | [], a => check q a
  | index :: positions, a =>
    tryDigits (enumerate q positions) index a q.direction.digits

/-- Forgets what was counted. -/
def reset : SearchM Unit := SearchM.count fun _ => .zero .exhaustive

/-- The first solution among all assignments, from fresh counters. -/
def search (q : Backtrack.Query) : SearchM SearchResult := do
  reset
  let found? ← enumerate q q.expr.inputIndices .empty
  return ⟨found?.map .ofAssignment, (← get).statistics⟩

end InputSolver.Exhaustive
