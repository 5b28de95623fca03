/-
  InputSolver — normal forms in an expression graph.

  A `Graph` remembers the normal forms of its nodes.  Nodes made by the
  operations on normal forms are settled and need no entry.

  * `normalize` is the normal form of an expression;
  * `simplify` is the normal form with the bound inputs replaced by their
    values: nodes over none of these inputs are normalized, the others are
    built anew, each once.
-/
import Std.Data.HashMap
import InputSolver.Normal.Operation

namespace InputSolver

/-- The next identity to give, and the known normal forms of unsettled
    nodes. -/
structure Graph where
  next : Nat
  normal : Std.HashMap Nat Expr

/-- No nodes, and so no normal forms. -/
def Graph.empty : Graph := ⟨0, ∅⟩

/-- Computations on an expression graph.  The normal forms found before a
    fault stay known. -/
abbrev GraphM := ExceptT Fault (StateM Graph)

namespace GraphM

/-- The result of a computation and the graph after it, unless it faults. -/
def runOn {α : Type} (x : GraphM α) (g : Graph) : Except Fault (α × Graph) :=
  let (result, g) := x.run.run g
  result.map fun a => (a, g)

/-- The result of a computation on a new graph. -/
def result {α : Type} (x : GraphM α) : Except Fault α := (x.runOn .empty).map (·.1)

/-- Makes nodes in the graph. -/
def build {α : Type} (x : Build α) : GraphM α := ExceptT.mk fun g =>
  match x g.next with
  | .ok (a, next) => (.ok a, { g with next })
  | .error fault => (.error fault, g)

/-- Remembers a normal form. -/
def record (id : Nat) (normal : Expr) : GraphM Unit :=
  modify fun g => { g with normal := g.normal.insert id normal }

/-- The normal form of a node, where it is known. -/
def normalForm? (e : Expr) : GraphM (Option Expr) := do
  match e with
  | .binary id settled .. => if settled then return some e else return (← get).normal[id]?
  | _ => return some e

/-- The normal form of an expression. -/
def normalize : Expr → GraphM Expr
  | e@(.binary id _ op l r) => do
    match ← normalForm? e with
    | some n => return n
    | none =>
      let l ← normalize l
      let r ← normalize r
      let n ← build (Normal.operation (some e) op l r)
      record id n
      return n
  | e => return e

/-- Results of one simplification, by identity. -/
abbrev Memo := Std.HashMap Nat Expr

/-- Whether an input between the lowest and the highest below a node is
    bound. -/
def touches (a : Assignment) (e : Expr) : Bool :=
  match e.inputSpan with
  | some (lo, hi) => a.bindsWithin lo hi
  | none => false

/-- The normal form with bound inputs replaced, by the results so far. -/
def simplifyWith (a : Assignment) : Expr → StateT Memo GraphM Expr
  | e@(.literal ..) => return e
  | e@(.input _ index) =>
    match a.get? index with
    | some value => build (Build.literal value)
    | none => return e
  | e@(.binary id _ op l r) => do
    if touches a e then
      match (← get)[id]? with
      | some n => return n
      | none =>
        let l ← simplifyWith a l
        let r ← simplifyWith a r
        let n ← build (Normal.operation (some e) op l r)
        modify (·.insert id n)
        return n
    else normalize e

/-- The normal form with the inputs that an assignment binds replaced by
    their values. -/
def simplify (a : Assignment) (e : Expr) : GraphM Expr :=
  if a.isEmpty then normalize e else (simplifyWith a e).run' ∅

end GraphM

end InputSolver
