/-
  InputSolver — normal forms: making a node.

  The modules below `Normal` have one operation for each operator that takes
  operands in normal form and gives an expression in normal form for the
  result.  When no rule applies, the operation ends in `finish`: the operator
  on the operands, or a literal where only one value is possible.

  An operation may be given a node to use again; it does so if no rule
  applies and the operands are that node's own.
-/
import InputSolver.Expr.Basic

namespace InputSolver.Normal

/-- The number of nodes, counted along every path. -/
def weight : Expr → Nat
  | .binary _ _ _ l r => weight l + weight r + 1
  | _ => 1

theorem weight_pos (e : Expr) : 0 < weight e := by
  cases e <;> simp [weight]

/-- The node of an operator and its operands. -/
def node (reuse? : Option Expr) (op : Operator) (l r : Expr) : Build Expr :=
  match reuse? with
  | some e =>
    if e.operands.map Expr.id = [l.id, r.id] then return e else Build.settled op l r
  | none => Build.settled op l r

/-- The node of an operator and its operands, or the only value it can have. -/
def finish (reuse? : Option Expr) (op : Operator) (l r : Expr) : Build Expr := do
  let e ← node reuse? op l r
  match (← e.range).singleValue? with
  | some value => Build.literal value
  | none => return e

theorem weight_literal {value : Word} {next next' : Nat} {e : Expr}
    (h : Build.literal value next = .ok (e, next')) : weight e = 1 := by
  cases h; rfl

theorem weight_finish {op : Operator} {l r e : Expr} {next next' : Nat}
    (h : finish none op l r next = .ok (e, next')) : weight e ≤ weight l + weight r + 1 := by
  obtain ⟨n, mid, hn, h₁⟩ := Build.bind_eq_ok h
  obtain ⟨range, mid', -, h₂⟩ := Build.bind_eq_ok h₁
  cases hn
  cases hv : range.singleValue? with
  | some value =>
    rw [hv] at h₂
    rw [weight_literal h₂]
    omega
  | none =>
    rw [hv] at h₂
    cases h₂
    exact Nat.le_refl _

end InputSolver.Normal
