/-
  InputSolver — expressions.

  An `Expr` says how a value depends on the inputs.  Expressions are shared:
  the same node may be an operand in many places.  Every node therefore has
  an identity, and a traversal that meets an identity again need not descend
  again.  In an expression graph (`Coherent`) the nodes of one identity are
  equal.

  * `range` is a range of all values of an expression; each node computes it
    at most once, when it is first asked for;
  * `inputSpan` are the lowest and the highest position of an input below a
    node;
  * `Build` are the computations that make nodes.
-/
import InputSolver.Assignment
import InputSolver.Digit
import InputSolver.Operator

namespace InputSolver

/-- A node of an expression graph.  A `settled` node is known to be in normal
    form. -/
inductive Expr where
  | literal (id : Nat) (value : Word)
  | input (id : Nat) (index : Nat)
  | binary (id : Nat) (settled : Bool) (op : Operator) (left right : Expr)
with
  @[computed_field]
  rangeCell : Expr → Thunk (Except Fault Range)
    | .literal _ value => .pure (.ok (.single value))
    | .input _ _ => .pure (.ok (.progression Digit.lowest Digit.highest 1))
    | .binary _ _ op left right => ⟨fun _ => do
        op.range (← left.rangeCell.get) (← right.rangeCell.get)⟩
  @[computed_field]
  inputSpan : Expr → Option (Nat × Nat)
    | .literal _ _ => none
    | .input _ index => some (index, index)
    | .binary _ _ _ left right =>
      match left.inputSpan, right.inputSpan with
      | some (a, b), some (c, d) => some (min a c, max b d)
      | span, none => span
      | none, span => span

namespace Expr

/-! ## Reading a node -/

/-- The identity of a node. -/
def id : Expr → Nat
  | literal id _ | input id _ | binary id _ _ _ _ => id

def literal? : Expr → Option Word
  | literal _ value => some value
  | _ => none

def input? : Expr → Option Nat
  | input _ index => some index
  | _ => none

/-- Whether a node is a literal or an input. -/
def isLeaf : Expr → Bool
  | binary .. => false
  | _ => true

/-- The operator of a node that has one. -/
def op? : Expr → Option Operator
  | binary _ _ op _ _ => some op
  | _ => none

/-- The operands of a node. -/
def operands : Expr → List Expr
  | binary _ _ _ left right => [left, right]
  | _ => []

/-- A range of all values of an expression over digits as inputs. -/
def range (e : Expr) : Except Fault Range := e.rangeCell.get

theorem range_literal (id : Nat) (value : Word) :
    (literal id value).range = .ok (.single value) := rfl

theorem range_input (id index : Nat) :
    (input id index).range = .ok (.progression Digit.lowest Digit.highest 1) := rfl

theorem range_binary (id : Nat) (settled : Bool) (op : Operator) (left right : Expr) :
    (binary id settled op left right).range =
      (do op.range (← left.range) (← right.range)) := rfl

/-! ## Identities -/

/-- A node and all nodes below it, as often as there are paths to them. -/
def nodes : Expr → List Expr
  | e@(binary _ _ _ left right) => e :: (left.nodes ++ right.nodes)
  | e => [e]

/-- The nodes of one identity, in the graph below some roots, are equal. -/
def Coherent (roots : List Expr) : Prop :=
  ∀ a ∈ roots.flatMap nodes, ∀ b ∈ roots.flatMap nodes, a.id = b.id → a = b

end Expr

/-! ## Making nodes -/

/-- Computations that make nodes: the state is the next identity to give. -/
abbrev Build := StateT Nat (Except Fault)

namespace Build

/-- An identity that no node has yet. -/
def identity : Build Nat := modifyGet fun next => (next, next + 1)

def literal (value : Word) : Build Expr := return .literal (← identity) value

def input (index : Nat) : Build Expr := return .input (← identity) index

/-- A node that is not known to be in normal form. -/
def binary (op : Operator) (left right : Expr) : Build Expr :=
  return .binary (← identity) false op left right

/-- A node that is in normal form. -/
def settled (op : Operator) (left right : Expr) : Build Expr :=
  return .binary (← identity) true op left right

/-- A computation together with a property of its result. -/
def attach {α : Type} {P : α → Prop} (x : Build α)
    (h : ∀ next a next', x next = .ok (a, next') → P a) : Build { a // P a } :=
  fun next =>
    match hx : x next with
    | .ok (a, next') => .ok (⟨a, h next a next' hx⟩, next')
    | .error f => .error f

theorem bind_eq_ok {α β : Type} {x : Build α} {f : α → Build β} {next next' : Nat} {b : β}
    (h : (x >>= f) next = .ok (b, next')) :
    ∃ a mid, x next = .ok (a, mid) ∧ f a mid = .ok (b, next') := by
  change (x next >>= fun p => f p.1 p.2) = .ok (b, next') at h
  cases hx : x next with
  | error fault => rw [hx] at h; cases h
  | ok p => rw [hx] at h; exact ⟨p.1, p.2, rfl, h⟩

theorem pure_eq_ok {α : Type} {a b : α} {next next' : Nat}
    (h : (pure a : Build α) next = .ok (b, next')) : a = b ∧ next = next' := by
  cases h
  exact ⟨rfl, rfl⟩

theorem lift_eq_ok {α : Type} {x : Except Fault α} {a : α} {next next' : Nat}
    (h : (liftM x : Build α) next = .ok (a, next')) : x = .ok a ∧ next = next' := by
  cases x with
  | error fault => cases h
  | ok b => cases h; exact ⟨rfl, rfl⟩

end Build

end InputSolver
