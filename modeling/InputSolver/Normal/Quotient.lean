/-
  InputSolver — normal forms of quotients.

  A quotient cancels a divisor that its dividend is or has as a factor, folds
  literals of a scaled or divided dividend into the divisor, is 0 where the
  dividend stays below the divisor, and goes into a sum that splits.
  Nothing cancels unless the divisor cannot be zero, and a quotient by the
  literal 0 stays as it is.
-/
import InputSolver.Expr.Equality
import InputSolver.Normal.Product
import InputSolver.Normal.Split

namespace InputSolver.Normal

/-- What is left of `l` when the divisor `r` cancels. -/
def cancelled? (l r : Expr) : Option Expr :=
  match l with
  | .binary _ _ .mul x y =>
    if y.alike r then some x else if x.alike r then some y else none
  | _ => none

/-- Whether a divisor is known not to be zero. -/
def isNonzero (r : Expr) : Except Fault Bool := return !(← r.range).includes 0

/-- The quotient of equal expressions, of zero, or of a product that has the
    divisor as a factor, where the divisor cannot be zero. -/
def cancel? (l r : Expr) : Build (Option Expr) := do
  if l.literal? = some 0 then
    if ← isNonzero r then return some (← Build.literal 0) else return none
  else if l.alike r then
    if ← isNonzero r then return some (← Build.literal 1) else return none
  else match l with
    | .binary _ _ .mul _ _ => if ← isNonzero r then return cancelled? l r else return none
    | _ => return none

/-- The largest magnitude of a remainder by `c`. -/
def remainderBound (c : Word) : Word := Word.satAbs c - 1

/-- The product of two positive literals, where it is a word. -/
def positiveProduct? (b c : Word) : Option Word :=
  if 0 < b ∧ 0 < c then (Word.exact (b.toInt * c.toInt)).toOption else none

/-- The split of a sum, together with its sizes. -/
def splitBelow (id : Nat) (settled : Bool) (l r : Expr) (c : Word) :
    Build { s? : Option Split // ∀ s, s? = some s → s.Below (.binary id settled .add l r) } :=
  (splitSum (.binary id settled .add l r) c).attach fun _ _ _ h _ hs => weight_splitSum (hs ▸ h)

/-- The quotient of an expression by the literal node `id` of value `c`. -/
def divLiteral (reuse? : Option Expr) (id : Nat) (c : Word) (l : Expr) : Build Expr := do
  if c = 0 then node reuse? .div l (.literal id c)
  else if let some a := l.literal? then Build.literal (a / c)
  else if let some e ← cancel? l (.literal id c) then return e
  else if c = 1 then return l
  else if c = -1 then mulLiteral none (← Build.identity) (-1) l
  else if (← l.range).within (-remainderBound c) (remainderBound c) then Build.literal 0
  else match l with
    | .binary _ _ .mul x (.literal _ k) =>
      if Word.divides c k then mulLiteral none (← Build.identity) (k / c) x
      else if Word.divides k c then divLiteral none (← Build.identity) (c / k) x
      else finish reuse? .div l (.literal id c)
    | .binary _ _ .div x (.literal _ b) =>
      match positiveProduct? b c with
      | some d => divLiteral none (← Build.identity) d x
      | none => finish reuse? .div l (.literal id c)
    | .binary i settled .add a b =>
      match ← splitBelow i settled a b c with
      | ⟨some split, _below⟩ =>
        let quotients ← split.multiples.attach.mapM fun ⟨m, _hm⟩ => do
          divLiteral none (← Build.identity) c m
        let rest ← divLiteral none (← Build.identity) c split.rest
        sumOf (quotients ++ [rest])
      | ⟨none, _⟩ => finish reuse? .div l (.literal id c)
    | l => finish reuse? .div l (.literal id c)
termination_by weight l
decreasing_by
  · simp only [weight]; omega
  · simp only [weight]; omega
  · exact (_below split rfl).1 m _hm
  · exact (_below split rfl).2

/-- The quotient of two expressions. -/
def div (reuse? : Option Expr) (l r : Expr) : Build Expr :=
  match r with
  | .literal id c => divLiteral reuse? id c l
  | r => do
    match ← cancel? l r with
    | some e => return e
    | none => finish reuse? .div l r

end InputSolver.Normal
