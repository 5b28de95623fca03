/-
  InputSolver — solutions.

  A `Solution` gives a digit to each of some inputs.

  * `assignment` is what it binds, `complete` extends it to all inputs of a
    program, `modelNumber` are its digits in a row.
-/
import InputSolver.Assignment
import InputSolver.Search.Config

namespace InputSolver

/-- Digits for some inputs, position by position. -/
structure Solution where
  inputs : List Nat
  digits : List Word
  length_eq : inputs.length = digits.length
  deriving DecidableEq

namespace Solution

/-- The solution with the given inputs and digits, as many of one as of the
    other. -/
def ofLists (inputs : List Nat) (digits : List Word) : Except Fault Solution :=
  if h : inputs.length = digits.length then .ok ⟨inputs, digits, h⟩ else .error .lengthMismatch

/-- The bindings of an assignment, in order of position. -/
def ofAssignment (a : Assignment) : Solution :=
  ⟨a.inputs, a.digits, by simp [Assignment.inputs, Assignment.digits]⟩

/-- What a solution binds; a later digit for the same input overrides. -/
def assignment (s : Solution) : Assignment := .ofPairs (s.inputs.zip s.digits)

/-- The number of inputs up to the last one of a solution.  Positions have 64
    bits, and so does their number. -/
def referenced (s : Solution) : Except Fault Nat :=
  match s.inputs.getLast? with
  | none => .ok 0
  | some i => if i + 1 < Word.countBound then .ok (i + 1) else .error .overflow

/-- The solution for the inputs from 0 on, `total` of them or as many as
    there are up to the last one; inputs without a digit get the preferred
    one. -/
def complete (s : Solution) (total : Nat) (direction : Direction) : Except Fault Solution := do
  let inputs := List.range (Nat.max total (← s.referenced))
  let a := s.assignment
  return ⟨inputs, inputs.map fun i => (a.get? i).getD direction.preferredDigit, by simp⟩

/-- The digits in a row. -/
def modelNumber (s : Solution) : String := String.join (s.digits.map Word.text)

end Solution

end InputSolver
