/-
  InputSolver — normal forms of operations.

  An equality test keeps a literal on the right, is 0 where its operands have
  no value in common, and 1 where they are alike.  `operation` is the normal
  form of any operator on operands in normal form.
-/
import InputSolver.Normal.Remainder

namespace InputSolver.Normal

/-- The equality test of two expressions that are not both literals, a
    literal on the right. -/
def eqlOrdered (reuse? : Option Expr) (l r : Expr) : Build Expr := do
  if (← l.range).meets (← r.range) then
    if l.alike r then Build.literal 1 else finish reuse? .eql l r
  else Build.literal 0

/-- The equality test of two expressions. -/
def eql (reuse? : Option Expr) (l r : Expr) : Build Expr :=
  match l, r with
  | .literal _ a, .literal _ b => Build.literal (if a = b then 1 else 0)
  | .literal id a, r => eqlOrdered none r (.literal id a)
  | l, r => eqlOrdered reuse? l r

/-- The normal form of an operator on operands in normal form. -/
def operation (reuse? : Option Expr) : Operator → Expr → Expr → Build Expr
  | .add, l, r => add reuse? l r
  | .mul, l, r => mul reuse? l r
  | .div, l, r => div reuse? l r
  | .mod, l, r => mod reuse? l r
  | .eql, l, r => eql reuse? l r

end InputSolver.Normal
