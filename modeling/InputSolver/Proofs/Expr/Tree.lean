/-
  InputSolver — trees of expressions.

  The `tree` of an expression is what is left when identities are forgotten:
  every node is unfolded along each path to it.

  * `range_eq_of_tree`, `valueOn_eq_of_tree`, `mentions_iff_of_tree`: ranges,
    values and inputs are those of the tree;
  * `alike_iff`: expressions of one heap compare as alike exactly if they have
    the same tree;
  * `Copies` relates expressions of two heaps that have the same tree, however
    they share nodes.
-/
import InputSolver.Proofs.Expr.Equality
import InputSolver.Proofs.Expr.Inputs

namespace InputSolver

/-- An expression without identities. -/
inductive Tree where
  | literal (value : Word)
  | input (index : Nat)
  | binary (op : Operator) (left right : Tree)
  deriving DecidableEq

namespace Expr

/-- The unfolding of an expression. -/
def tree : Expr → Tree
  | literal _ value => .literal value
  | input _ index => .input index
  | binary _ _ op l r => .binary op l.tree r.tree

@[simp] theorem tree_literal (id : Nat) (value : Word) : (literal id value).tree = .literal value :=
  rfl

@[simp] theorem tree_input (id index : Nat) : (input id index).tree = .input index := rfl

@[simp] theorem tree_binary (id : Nat) (settled : Bool) (op : Operator) (l r : Expr) :
    (binary id settled op l r).tree = .binary op l.tree r.tree := rfl

/-! ## Nodes of a given tree -/

theorem tree_eq_literal {e : Expr} {value : Word} :
    e.tree = .literal value ↔ ∃ id, e = literal id value := by
  cases e <;> simp

theorem tree_eq_input {e : Expr} {index : Nat} :
    e.tree = .input index ↔ ∃ id, e = input id index := by
  cases e <;> simp

theorem tree_eq_binary {e : Expr} {op : Operator} {s t : Tree} :
    e.tree = .binary op s t ↔
      ∃ id settled l r, e = binary id settled op l r ∧ l.tree = s ∧ r.tree = t := by
  cases e with
  | binary id settled op' l r =>
    simp only [tree_binary, Tree.binary.injEq, binary.injEq]
    constructor
    · rintro ⟨rfl, rfl, rfl⟩
      exact ⟨id, settled, l, r, ⟨rfl, rfl, rfl, rfl, rfl⟩, rfl, rfl⟩
    · rintro ⟨_, _, _, _, ⟨-, -, rfl, rfl, rfl⟩, rfl, rfl⟩
      exact ⟨rfl, rfl, rfl⟩
  | _ => simp

/-! ## What the tree decides -/

variable {e e' : Expr}

/-- What is the same for leaves of one tree, and for nodes whose operands agree
    in it, depends on the tree only. -/
theorem eq_of_tree {α : Type} {f : Expr → α}
    (hliteral : ∀ id id' value, f (literal id value) = f (literal id' value))
    (hinput : ∀ id id' index, f (input id index) = f (input id' index))
    (hbinary : ∀ id id' settled settled' op l l' r r', f l = f l' → f r = f r' →
      f (binary id settled op l r) = f (binary id' settled' op l' r'))
    (h : e.tree = e'.tree) : f e = f e' := by
  induction e generalizing e' with
  | literal id value =>
    obtain ⟨id', rfl⟩ := tree_eq_literal.1 h.symm
    exact hliteral id id' value
  | input id index =>
    obtain ⟨id', rfl⟩ := tree_eq_input.1 h.symm
    exact hinput id id' index
  | binary id settled op l r ihl ihr =>
    obtain ⟨id', settled', l', r', rfl, hl, hr⟩ := tree_eq_binary.1 h.symm
    exact hbinary _ _ _ _ op l l' r r' (ihl hl.symm) (ihr hr.symm)

theorem range_eq_of_tree (h : e.tree = e'.tree) : e.range = e'.range :=
  eq_of_tree (fun _ _ _ => rfl) (fun _ _ _ => rfl)
    (fun _ _ _ _ _ _ _ _ _ hl hr => by rw [range_binary, range_binary, hl, hr]) h

theorem inputSpan_eq_of_tree (h : e.tree = e'.tree) : e.inputSpan = e'.inputSpan :=
  eq_of_tree (fun _ _ _ => rfl) (fun _ _ _ => rfl)
    (fun _ _ _ _ _ _ _ _ _ hl hr => by rw [inputSpan_binary, inputSpan_binary, hl, hr]) h

theorem valueOn_eq_of_tree (h : e.tree = e'.tree) (a : Assignment) : valueOn a e = valueOn a e' :=
  eq_of_tree (f := valueOn a) (fun _ _ _ => rfl) (fun _ _ _ => rfl)
    (fun _ _ _ _ _ _ _ _ _ hl hr => by simp only [valueOn, hl, hr]) h

theorem mentions_iff_of_tree (h : e.tree = e'.tree) (i : Nat) : e.Mentions i ↔ e'.Mentions i := by
  refine iff_of_eq (eq_of_tree (f := (Mentions · i)) (fun _ _ _ => ?_) (fun _ _ _ => ?_)
    (fun _ _ _ _ _ _ _ _ _ hl hr => ?_) h)
  · exact propext (iff_of_false not_mentions_literal not_mentions_literal)
  · exact propext (mentions_input.trans mentions_input.symm)
  · simp only [mentions_binary, hl, hr]

theorem Alike.tree_eq (h : Alike e e') : e.tree = e'.tree := by
  induction e generalizing e' with
  | binary id settled op l r ihl ihr =>
    cases e' with
    | binary id' settled' op' l' r' =>
      obtain ⟨rfl, hl, hr⟩ := h
      rw [tree_binary, tree_binary, ihl hl, ihr hr]
    | _ => exact h.elim
  | literal id value =>
    cases e' with
    | literal id' value' => exact congrArg Tree.literal h
    | _ => exact h.elim
  | input id index =>
    cases e' with
    | input id' index' => exact congrArg Tree.input h
    | _ => exact h.elim

/-- Expressions of one tree compare as alike, whatever pairs are recorded. -/
theorem compareWith_of_tree (h : e.tree = e'.tree) (pairs : Pairs) :
    ((compareWith e e').run pairs).1 = true := by
  induction e generalizing e' pairs with
  | literal id value =>
    obtain ⟨id', rfl⟩ := tree_eq_literal.1 h.symm
    exact beq_self_eq_true value
  | input id index =>
    obtain ⟨id', rfl⟩ := tree_eq_input.1 h.symm
    exact beq_self_eq_true index
  | binary id settled op l r ihl ihr =>
    have hspan := inputSpan_eq_of_tree h
    obtain ⟨id', settled', l', r', rfl, hl, hr⟩ := tree_eq_binary.1 h.symm
    rw [compareWith_run_binary]
    split
    · rfl
    · rw [if_neg (not_or.2 ⟨not_not.2 rfl, not_not.2 hspan⟩)]
      split
      · rfl
      · have hcl := ihl hl.symm pairs
        rcases hrun : (compareWith l l').run pairs with ⟨same, pairs₁⟩
        rw [hrun] at hcl
        obtain rfl : same = true := hcl
        have hcr := ihr hr.symm pairs₁
        rcases hrun' : (compareWith r r').run pairs₁ with ⟨same, pairs₂⟩
        rw [hrun'] at hcr
        obtain rfl : same = true := hcr
        simp only [hrun', if_true]

/-- Expressions of one heap compare as alike exactly if they have one tree. -/
theorem alike_iff {h : Heap} (he : h.Holds e) (he' : h.Holds e') :
    e.alike e' = true ↔ e.tree = e'.tree :=
  ⟨fun halike => (alike_of_holds he he' halike).tree_eq, fun htree => compareWith_of_tree htree ∅⟩

/-! ## Copies -/

/-- Expressions of two heaps with one tree. -/
structure Copies (h : Heap) (e : Expr) (k : Heap) (e' : Expr) : Prop where
  left : h.Holds e
  right : k.Holds e'
  tree : e.tree = e'.tree

variable {h h' k k' : Heap}

theorem Copies.mono (hc : Copies h e k e') (hle : h ≤ h') (hle' : k ≤ k') : Copies h' e k' e' :=
  ⟨hc.left.mono hle, hc.right.mono hle', hc.tree⟩

theorem Copies.operands {id id' : Nat} {settled settled' : Bool} {op op' : Operator}
    {l r l' r' : Expr}
    (hc : Copies h (binary id settled op l r) k (binary id' settled' op' l' r')) :
    op = op' ∧ Copies h l k l' ∧ Copies h r k r' := by
  obtain ⟨hop, hl, hr⟩ := Tree.binary.inj hc.tree
  exact ⟨hop, ⟨hc.left.left, hc.right.left, hl⟩, ⟨hc.left.right, hc.right.right, hr⟩⟩

theorem Copies.range_eq (hc : Copies h e k e') : e.range = e'.range := range_eq_of_tree hc.tree

/-- What is alike in one heap is alike in the other. -/
theorem Copies.alike_eq {f f' : Expr} (hc : Copies h e k e') (hf : Copies h f k f') :
    e.alike f = e'.alike f' := by
  rw [Bool.eq_iff_iff, alike_iff hc.left hf.left, alike_iff hc.right hf.right, hc.tree, hf.tree]

/-- A copy of a literal is a literal. -/
theorem Copies.of_literal {id : Nat} {value : Word} (hc : Copies h (literal id value) k e') :
    ∃ id', e' = literal id' value := tree_eq_literal.1 hc.tree.symm

/-- A copy of an input is an input. -/
theorem Copies.of_input {id index : Nat} (hc : Copies h (input id index) k e') :
    ∃ id', e' = input id' index := tree_eq_input.1 hc.tree.symm

/-- A copy of an operation is an operation on copies. -/
theorem Copies.of_binary {id : Nat} {settled : Bool} {op : Operator} {l r : Expr}
    (hc : Copies h (binary id settled op l r) k e') :
    ∃ id' settled' l' r', e' = binary id' settled' op l' r' ∧ Copies h l k l' ∧
      Copies h r k r' := by
  obtain ⟨id', settled', l', r', rfl, -, -⟩ := tree_eq_binary.1 hc.tree.symm
  obtain ⟨-, hl, hr⟩ := hc.operands
  exact ⟨id', settled', l', r', rfl, hl, hr⟩

/-- Copies are literals of one value, inputs of one position, or the same
    operation on copies. -/
@[elab_as_elim]
theorem Copies.shapes {motive : (e e' : Expr) → Copies h e k e' → Prop}
    (literal : ∀ {id id' value} hc, motive (literal id value) (literal id' value) hc)
    (input : ∀ {id id' index} hc, motive (input id index) (input id' index) hc)
    (binary : ∀ {id id' settled settled' op l l' r r'} hc, Copies h l k l' → Copies h r k r' →
      motive (binary id settled op l r) (binary id' settled' op l' r') hc)
    (hc : Copies h e k e') : motive e e' hc := by
  cases e with
  | literal id value =>
    obtain ⟨id', rfl⟩ := hc.of_literal
    exact literal hc
  | input id index =>
    obtain ⟨id', rfl⟩ := hc.of_input
    exact input hc
  | binary id settled op l r =>
    obtain ⟨id', settled', l', r', rfl, hl, hr⟩ := hc.of_binary
    exact binary hc hl hr

end Expr

end InputSolver
