/-
  InputSolver — normal forms of products.

  A product keeps its literal on the right, folds literals that meet, and
  distributes a literal over a sum.  Factors 0 and 1 disappear.
-/
import InputSolver.Normal.Sum

namespace InputSolver.Normal

/-- The product of an expression and the literal node `id` of value `c`. -/
def mulLiteral (reuse? : Option Expr) (id : Nat) (c : Word) : Expr → Build Expr
  | .literal _ a => Build.literal (a * c)
  | l =>
    if c = 0 then Build.literal 0
    else if c = 1 then return l
    else match l with
      | .binary _ _ .mul x (.literal _ k) => do mulLiteral none (← Build.identity) (k * c) x
      | .binary _ _ .add a b => do
        let a ← mulLiteral none id c a
        let b ← mulLiteral none id c b
        add none a b
      | l => finish reuse? .mul l (.literal id c)

/-- The product of two expressions. -/
def mul (reuse? : Option Expr) (l r : Expr) : Build Expr :=
  match l, r with
  | l, .literal id c => mulLiteral reuse? id c l
  | .literal id a, r => mulLiteral none id a r
  | l, r => finish reuse? .mul l r

end InputSolver.Normal
