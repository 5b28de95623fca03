/-
  InputSolver — failures.

  Two kinds of failure are kept apart.  A `Fault` ends a computation that has
  no answer: a word operation left the 64-bit range where its result was
  needed exactly, or a caller broke the terms of an operation.  An
  `EvalError` is an answer of its own: the value asked for does not exist.
-/
namespace InputSolver

/-- Why a computation has no answer. -/
inductive Fault where
  /-- an exact word operation left the 64-bit range -/
  | overflow
  /-- two lists that go together have different lengths -/
  | lengthMismatch
  /-- an interval of indices ends before it begins -/
  | reversedBounds
  deriving DecidableEq

/-- Why an expression or a program has no value under an assignment. -/
inductive EvalError where
  /-- the input at this position has no value -/
  | unboundInput (index : Nat)
  /-- a quotient or remainder by zero was reached -/
  | divisionByZero
  deriving DecidableEq

namespace EvalError

/-- The wording of an evaluation error. -/
def message : EvalError → String
  | .unboundInput index => "input i" ++ toString index ++ " is not bound"
  | .divisionByZero => "division by zero"

end EvalError

end InputSolver
