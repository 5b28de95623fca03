/-
  InputSolver — values of expressions.

  * `evaluate` is the value under an assignment; it computes each shared node
    once;
  * `valueOn` is the same without sharing, by recursion on the expression
    alone: operands from left to right, the first error wins.
-/
import Std.Data.HashMap
import InputSolver.Expr.Basic

namespace InputSolver.Expr

/-- The value by recursion along every path. -/
def valueOn (a : Assignment) : Expr → Except EvalError Word
  | literal _ value => .ok value
  | input _ index =>
    match a.get? index with
    | some value => .ok value
    | none => .error (.unboundInput index)
  | binary _ _ op l r => do
    let x ← valueOn a l
    let y ← valueOn a r
    op.apply x y

/-- The values found so far, by identity. -/
abbrev Values := Std.HashMap Nat Word

/-- The value, with nodes that have one already not computed again. -/
def evaluateWith (a : Assignment) : Expr → StateT Values (Except EvalError) Word
  | literal _ value => return value
  | input _ index =>
    match a.get? index with
    | some value => return value
    | none => throw (.unboundInput index)
  | binary id _ op l r => do
    if let some value := (← get)[id]? then return value
    let x ← evaluateWith a l
    let y ← evaluateWith a r
    let value ← op.apply x y
    modify (·.insert id value)
    return value

/-- The value under an assignment, or why there is none. -/
def evaluate (e : Expr) (a : Assignment) : Except EvalError Word :=
  (evaluateWith a e).run' ∅

end InputSolver.Expr
