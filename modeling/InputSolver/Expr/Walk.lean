/-
  InputSolver — walks over expression graphs.

  * `pathWalk` goes along every path: a node, then its left and its right
    operand.  Its length grows with the number of paths;
  * `uniqueWalk` meets each node once, after its operands;
  * `inputIndices` and `nodeCount` are read off the unique walk.
-/
import Std.Data.HashSet
import InputSolver.Expr.Basic

namespace InputSolver.Expr

/-- All nodes along every path, each before its operands. -/
def pathWalk (e : Expr) : List Expr := e.nodes

/-- What a walk has met: the identities, and the nodes it left, the latest
    first. -/
structure Walk where
  seen : Std.HashSet Nat
  left : List Expr

/-- Walks the nodes below `e` that were not met before, then leaves `e`. -/
def walkFrom (w : Walk) : Expr → Walk
  | e@(binary id _ _ l r) =>
    if w.seen.contains id then w
    else
      let w := walkFrom (walkFrom { w with seen := w.seen.insert id } l) r
      { w with left := e :: w.left }
  | e => if w.seen.contains e.id then w else ⟨w.seen.insert e.id, e :: w.left⟩

/-- Each node once, after its operands, and the left operand first. -/
def uniqueWalk (e : Expr) : List Expr := (walkFrom ⟨∅, []⟩ e).left.reverse

/-- The number of nodes. -/
def nodeCount (e : Expr) : Nat := e.uniqueWalk.length

/-- The positions of the inputs, in ascending order. -/
def inputIndices (e : Expr) : List Nat :=
  ((e.uniqueWalk.filterMap input?).mergeSort fun a b => a ≤ b).eraseReps

end InputSolver.Expr
