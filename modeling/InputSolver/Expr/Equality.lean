/-
  InputSolver — equality of expressions.

  Two expressions are alike if they have the same shape, whatever the
  identities of their nodes.

  * `Alike` says so by recursion on both;
  * `alike` decides it for nodes of one graph: nodes of one identity need no
    comparison, nor do pairs that were found alike before.
-/
import Std.Data.HashSet
import InputSolver.Expr.Basic

namespace InputSolver.Expr

/-- The same literals, inputs and operators in the same places. -/
def Alike : Expr → Expr → Prop
  | literal _ v, literal _ w => v = w
  | input _ i, input _ j => i = j
  | binary _ _ op l r, binary _ _ op' l' r' => op = op' ∧ Alike l l' ∧ Alike r r'
  | _, _ => False

/-- Pairs of identities whose nodes were found alike. -/
abbrev Pairs := Std.HashSet (Nat × Nat)

/-- Compares two nodes; nodes over different inputs are told apart by their
    spans. -/
def compareWith : Expr → Expr → StateM Pairs Bool
  | literal _ v, literal _ w => return v == w
  | input _ m, input _ n => return m == n
  | a@(binary i _ op l r), b@(binary j _ op' l' r') => do
    if i = j then return true
    if op ≠ op' ∨ a.inputSpan ≠ b.inputSpan then return false
    if (← get).contains (i, j) then return true
    if ← compareWith l l' then
      if ← compareWith r r' then
        modify (·.insert (i, j))
        return true
    return false
  | _, _ => return false

/-- Whether two expressions are alike. -/
def alike (a b : Expr) : Bool := ((compareWith a b).run ∅).1

end InputSolver.Expr
