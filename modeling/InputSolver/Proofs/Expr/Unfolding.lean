/-
  InputSolver — readings of an expression and of its unfolding.

  However the nodes of an expression are shared, what is read off it is read
  off its tree.

  * `valueOn_tree`: values are those of the tree, computed along every path;
  * `text_eq_of_tree`: expressions of one tree have one text;
  * `Copies.evaluate_eq`, `Copies.inputIndices_eq`: copies have the same values
    and the same inputs;
  * `sharing_unobservable`: comparison, values, ranges, inputs and text of the
    expressions of one graph.
-/
import Mathlib.Data.List.Sort
import InputSolver.Expr.Text
import InputSolver.Proofs.Expr.Evaluate
import InputSolver.Proofs.Expr.Tree
import InputSolver.Proofs.Expr.Walk

namespace InputSolver

/-- The value of a tree: operands from left to right, the first error wins. -/
def Tree.valueOn (a : Assignment) : Tree → Except EvalError Word
  | literal value => .ok value
  | input index =>
    match a.get? index with
    | some value => .ok value
    | none => .error (.unboundInput index)
  | binary op l r => do
    let x ← l.valueOn a
    let y ← r.valueOn a
    op.apply x y

namespace Expr

variable {h k : Heap} {e e' : Expr}

theorem valueOn_tree (a : Assignment) (e : Expr) : valueOn a e = e.tree.valueOn a := by
  induction e with
  | binary id settled op l r ihl ihr => rw [valueOn, tree_binary, Tree.valueOn, ihl, ihr]
  | _ => rfl

/-! ## Text -/

/-- The text of a sum, which shows the sign of a literal before it. -/
theorem text_add (id : Nat) (settled : Bool) (l r : Expr) :
    (binary id settled .add l r).text =
      match r.literal? with
      | some value =>
        if value < 0 then "(" ++ l.text ++ " - " ++ toString value.toInt.natAbs ++ ")"
        else "(" ++ l.text ++ " + " ++ r.text ++ ")"
      | none => "(" ++ l.text ++ " " ++ Operator.add.symbol ++ " " ++ r.text ++ ")" := by
  cases r <;> rfl

/-- The text of any other operation is made of those of its operands. -/
theorem text_binary_congr {id id' : Nat} {settled settled' : Bool} {op : Operator}
    {l r l' r' : Expr} (hop : op ≠ .add) (hl : l.text = l'.text) (hr : r.text = r'.text) :
    (binary id settled op l r).text = (binary id' settled' op l' r').text := by
  cases op with
  | add => exact absurd rfl hop
  | _ => simp only [text, hl, hr]

/-- Expressions of one tree have one text. -/
theorem text_eq_of_tree (h : e.tree = e'.tree) : e.text = e'.text := by
  -- a sum also asks whether its right operand is a literal
  suffices (e.text, e.literal?) = (e'.text, e'.literal?) from (Prod.mk.inj this).1
  refine eq_of_tree (f := fun e => (e.text, e.literal?)) (fun _ _ _ => rfl) (fun _ _ _ => rfl) ?_ h
  intro id id' settled settled' op l l' r r' hl hr
  obtain ⟨hl, -⟩ := Prod.mk.inj hl
  obtain ⟨hr, hliteral⟩ := Prod.mk.inj hr
  refine Prod.ext ?_ rfl
  by_cases hop : op = .add
  · subst hop
    simp only [text_add, hl, hr, hliteral]
  · exact text_binary_congr hop hl hr

/-! ## Copies -/

/-- Copies have the same values. -/
theorem Copies.evaluate_eq (he : Copies h e k e') (a : Assignment) :
    e.evaluate a = e'.evaluate a := by
  rw [evaluate_eq_valueOn he.left, evaluate_eq_valueOn he.right, valueOn_eq_of_tree he.tree]

/-- Copies have the same inputs. -/
theorem Copies.inputIndices_eq (he : Copies h e k e') : e.inputIndices = e'.inputIndices := by
  refine (pairwise_inputIndices e).eq_of_mem_iff (pairwise_inputIndices e') fun i => ?_
  rw [mem_inputIndices he.left, mem_inputIndices he.right, mentions_iff_of_tree he.tree]

/-- Nothing that is read off expressions shows how their nodes are shared: they
    compare as alike exactly if they have one tree, their values are those of
    their trees, and with one tree they have the same values, range, inputs
    and text. -/
theorem sharing_unobservable (hgraph : Coherent [e, e']) :
    (e.alike e' = true ↔ e.tree = e'.tree) ∧
      (∀ a, e.evaluate a = e.tree.valueOn a ∧ e'.evaluate a = e'.tree.valueOn a) ∧
      (e.tree = e'.tree → (∀ a, e.evaluate a = e'.evaluate a) ∧ e.range = e'.range ∧
        e.inputSpan = e'.inputSpan ∧ e.inputIndices = e'.inputIndices ∧ e.text = e'.text) := by
  obtain ⟨h, hholds⟩ := Heap.exists_holds hgraph
  have he : h.Holds e := hholds e List.mem_cons_self
  have he' : h.Holds e' := hholds e' (List.mem_cons_of_mem _ List.mem_cons_self)
  refine ⟨alike_iff he he', fun a => ⟨?_, ?_⟩, fun htree => ?_⟩
  · rw [evaluate_eq_valueOn he, valueOn_tree]
  · rw [evaluate_eq_valueOn he', valueOn_tree]
  · have hcopies : Copies h e h e' := ⟨he, he', htree⟩
    exact ⟨hcopies.evaluate_eq, range_eq_of_tree htree, inputSpan_eq_of_tree htree,
      hcopies.inputIndices_eq, text_eq_of_tree htree⟩

/-- The square of a sum with the sum shared, and with a copy of it as the other
    factor. -/
theorem sharing_unobservable_square :
    let sum := binary 2 false .add (.input 0 0) (.literal 1 (-1))
    let square := binary 3 false .mul sum sum
    let unshared := binary 5 true .mul sum (binary 4 true .add (.input 0 0) (.literal 6 (-1)))
    Coherent [square, unshared] ∧ square.tree = unshared.tree ∧ square.alike unshared = true ∧
      (∀ a, square.evaluate a = unshared.evaluate a) ∧ square.range = unshared.range ∧
      square.text = unshared.text := by
  intro sum square unshared
  have hgraph : Coherent [square, unshared] := by
    simp [square, unshared, sum, Coherent, nodes, id]
  obtain ⟨halike, -, hsame⟩ := sharing_unobservable hgraph
  obtain ⟨hvalue, hrange, -, -, htext⟩ := hsame rfl
  exact ⟨hgraph, rfl, halike.2 rfl, hvalue, hrange, htext⟩

end Expr

end InputSolver
