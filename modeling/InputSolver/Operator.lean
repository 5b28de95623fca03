/-
  InputSolver — the operators.

  The five operators of the machine act on words (`apply`) and on ranges of
  words (`range`).  Sums and products wrap around, quotients are cut towards
  zero, a remainder has the sign of its dividend, and an equality test gives
  1 or 0.  A zero divisor is an error on words; on ranges it is left out.
-/
import InputSolver.Range.Arithmetic
import InputSolver.Range.Remainder

namespace InputSolver

inductive Operator where
  | add | mul | div | mod | eql
  deriving DecidableEq

namespace Operator

def symbol : Operator → String
  | add => "+"
  | mul => "*"
  | div => "/"
  | mod => "%"
  | eql => "=="

/-- The value for two operands. -/
def apply : Operator → Word → Word → Except EvalError Word
  | add, a, b => .ok (a + b)
  | mul, a, b => .ok (a * b)
  | div, a, b => if b = 0 then .error .divisionByZero else .ok (a / b)
  | mod, a, b => if b = 0 then .error .divisionByZero else .ok (a % b)
  | eql, a, b => .ok (if a = b then 1 else 0)

/-- A range of all values for operands drawn from two ranges. -/
def range : Operator → Range → Range → Except Fault Range
  | add, r, s => r.sum s
  | mul, r, s => r.product s
  | div, r, s => r.quotient s
  | mod, r, s => r.remainder s
  | eql, r, s => return r.equality s

end Operator

end InputSolver
