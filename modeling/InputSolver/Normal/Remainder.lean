/-
  InputSolver — normal forms of remainders.

  A remainder is 0 for a multiple of the divisor, the dividend itself where
  that stays on one side of zero and below the divisor, and drops the terms
  of a sum that are multiples of the divisor.  A remainder by the literal 0
  stays as it is.
-/
import InputSolver.Normal.Quotient

namespace InputSolver.Normal

/-- Whether all values are their own remainders for divisors of magnitude
    above `bound`. -/
def isOwnRemainder (r : Range) (bound : Word) : Bool := r.within 0 bound || r.within (-bound) 0

/-- The remainder of an expression by the literal node `id` of value `c`. -/
def modLiteral (reuse? : Option Expr) (id : Nat) (c : Word) (l : Expr) : Build Expr := do
  if c = 0 then node reuse? .mod l (.literal id c)
  else if let some a := l.literal? then Build.literal (a % c)
  else if c = 1 ∨ c = -1 then Build.literal 0
  else if isOwnRemainder (← l.range) (remainderBound c) then return l
  else if ← isMultiple c l then Build.literal 0
  else match l with
    | .binary _ _ .mod x (.literal _ b) =>
      if b = c then modLiteral none id c x else finish reuse? .mod l (.literal id c)
    | .binary i settled .add a b =>
      match ← splitBelow i settled a b c with
      | ⟨some split, _below⟩ => modLiteral none id c split.rest
      | ⟨none, _⟩ => finish reuse? .mod l (.literal id c)
    | l => finish reuse? .mod l (.literal id c)
termination_by weight l
decreasing_by
  · simp only [weight]; omega
  · exact (_below split rfl).2

/-- The remainder of two expressions. -/
def mod (reuse? : Option Expr) (l r : Expr) : Build Expr :=
  match r with
  | .literal id c => modLiteral reuse? id c l
  | r => do
    if l.literal? = some 0 then
      if ← isNonzero r then Build.literal 0 else finish reuse? .mod l r
    else finish reuse? .mod l r

end InputSolver.Normal
