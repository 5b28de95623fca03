/-
  InputSolver — normal forms of sums.

  A sum keeps its literal outermost and on the right, so that literals meet
  and fold: `(x + c) + d` becomes `x + (c + d)`, `c + x` becomes `x + c`, and
  `x + (y + c)` becomes `(x + y) + c`.

  * `addLiteral` and `add` are the operations; `sumOf` adds up a list;
  * `weight_add`: a sum is no larger than its operands together.
-/
import InputSolver.Normal.Node

namespace InputSolver.Normal

/-- The sum of an expression and the literal node `id` of value `c`. -/
def addLiteral (reuse? : Option Expr) (id : Nat) (c : Word) : Expr → Build Expr
  | .literal _ a => Build.literal (a + c)
  | l@(.binary _ _ .add x (.literal _ b)) =>
    if c = 0 then return l else do addLiteral none (← Build.identity) (b + c) x
  | l => if c = 0 then return l else finish reuse? .add l (.literal id c)

/-- The sum of two expressions. -/
def add (reuse? : Option Expr) (l : Expr) : Expr → Build Expr
  | .literal id c => addLiteral reuse? id c l
  | r@(.binary _ _ .add y (.literal id c)) =>
    match l with
    | .literal lid a => addLiteral none lid a r
    | _ => do addLiteral none id c (← add none l y)
  | r =>
    match l with
    | .literal lid a => addLiteral none lid a r
    | _ => finish reuse? .add l r

/-- The sum of some terms, from left to right. -/
def sumOf : List Expr → Build Expr
  | [] => Build.literal 0
  | t :: ts => ts.foldlM (add none) t

/-! ## Sizes -/

theorem weight_addLiteral {reuse? : Option Expr} (hr : reuse? = none) {id : Nat} {c : Word}
    {l e : Expr} {next next' : Nat} (h : addLiteral reuse? id c l next = .ok (e, next')) :
    weight e ≤ weight l + 2 := by
  revert next
  fun_induction addLiteral reuse? id c l <;> intro next h
  · rw [weight_literal h]; omega
  · cases h; omega
  · rename_i ih
    obtain ⟨n, mid, -, h₁⟩ := Build.bind_eq_ok h
    have := ih n rfl h₁
    simp only [weight]; omega
  · cases h; omega
  · subst hr; have := weight_finish h; simp only [weight] at this; omega

theorem weight_add {reuse? : Option Expr} (hr : reuse? = none) {l r e : Expr} {next next' : Nat}
    (h : add reuse? l r next = .ok (e, next')) : weight e ≤ weight l + weight r + 1 := by
  have hl := weight_pos l
  revert next e next'
  fun_induction add reuse? l r <;> intro e next next' h
  · have := weight_addLiteral hr h; simp only [weight]; omega
  · have := weight_addLiteral rfl h; simp only [weight] at this ⊢; omega
  · rename_i ih
    obtain ⟨inner, mid, hinner, h₁⟩ := Build.bind_eq_ok h
    have := weight_addLiteral rfl h₁
    have := ih rfl hinner
    simp only [weight]; omega
  · have := weight_addLiteral rfl h; omega
  · subst hr; exact weight_finish h

end InputSolver.Normal
