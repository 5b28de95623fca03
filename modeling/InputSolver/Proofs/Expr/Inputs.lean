/-
  InputSolver — nodes and inputs of expressions.

  `Mentions` says that an input occurs in an expression, `Over` that all that
  occur are at positions of a set.

  * `mem_inputSpan`: the span contains every input that occurs;
  * `valueOn_bound`: with all of them bound, a value is never missing for want
    of an input.
-/
import InputSolver.Expr.Evaluate
import InputSolver.Proofs.Assignment

namespace InputSolver

/-- An operator needs no input. -/
theorem Operator.apply_bound (op : Operator) (x y : Word) (i : Nat) :
    op.apply x y ≠ .error (.unboundInput i) := by
  cases op with
  | div | mod =>
    intro h
    simp only [apply] at h
    split at h <;> cases h
  | _ => nofun

namespace Expr

/-! ## Nodes -/

theorem self_mem_nodes (e : Expr) : e ∈ e.nodes := by
  cases e <;> exact List.mem_cons_self

theorem mem_nodes_binary {n : Expr} {id : Nat} {settled : Bool} {op : Operator} {l r : Expr} :
    n ∈ (binary id settled op l r).nodes ↔
      n = binary id settled op l r ∨ n ∈ l.nodes ∨ n ∈ r.nodes := by
  simp only [nodes, List.mem_cons, List.mem_append]

theorem mem_nodes_trans {n m e : Expr} (hn : n ∈ m.nodes) (hm : m ∈ e.nodes) : n ∈ e.nodes := by
  induction e with
  | binary id settled op l r ihl ihr =>
    rcases mem_nodes_binary.1 hm with rfl | hm | hm
    · exact hn
    · exact mem_nodes_binary.2 (.inr (.inl (ihl hm)))
    · exact mem_nodes_binary.2 (.inr (.inr (ihr hm)))
  | _ =>
    obtain rfl := List.mem_singleton.1 hm
    exact hn

theorem nodes_of_isLeaf {e : Expr} (he : e.isLeaf = true) : e.nodes = [e] := by
  cases e with
  | binary id settled op l r => cases he
  | _ => rfl

theorem length_nodes_binary (id : Nat) (settled : Bool) (op : Operator) (l r : Expr) :
    (binary id settled op l r).nodes.length = l.nodes.length + r.nodes.length + 1 := by
  simp [nodes]

/-! ## Inputs -/

/-- All inputs are at positions of `S`. -/
def Over (S : Nat → Prop) (e : Expr) : Prop := ∀ n ∈ e.nodes, ∀ i, n.input? = some i → S i

theorem over_literal (S : Nat → Prop) (id : Nat) (value : Word) : (literal id value).Over S := by
  intro n hn i hi
  obtain rfl := List.mem_singleton.1 hn
  cases hi

theorem over_input {S : Nat → Prop} {id index : Nat} : (input id index).Over S ↔ S index := by
  simp [Over, nodes, input?]

theorem over_binary {S : Nat → Prop} {id : Nat} {settled : Bool} {op : Operator} {l r : Expr} :
    (binary id settled op l r).Over S ↔ l.Over S ∧ r.Over S := by
  simp [Over, mem_nodes_binary, or_imp, forall_and, input?]

theorem Over.imp {S T : Nat → Prop} {e : Expr} (h : e.Over S) (hST : ∀ i, S i → T i) : e.Over T :=
  fun n hn i hi => hST i (h n hn i hi)

/-- The input at a position occurs in an expression. -/
def Mentions (e : Expr) (i : Nat) : Prop := ∃ n ∈ e.nodes, n.input? = some i

theorem over_mentions (e : Expr) : e.Over e.Mentions := fun n hn _ hi => ⟨n, hn, hi⟩

theorem Over.of_mentions {S : Nat → Prop} {e : Expr} {i : Nat} (h : e.Over S) (hi : e.Mentions i) :
    S i := by
  obtain ⟨n, hn, hi⟩ := hi
  exact h n hn i hi

theorem mentions_binary {id : Nat} {settled : Bool} {op : Operator} {l r : Expr} {i : Nat} :
    (binary id settled op l r).Mentions i ↔ l.Mentions i ∨ r.Mentions i := by
  simp [Mentions, mem_nodes_binary, or_and_right, exists_or, input?]

theorem not_mentions_literal {id : Nat} {value : Word} {i : Nat} :
    ¬ (literal id value).Mentions i := by
  simp [Mentions, nodes, input?]

theorem mentions_input {id index i : Nat} : (input id index).Mentions i ↔ index = i := by
  simp [Mentions, nodes, input?]

/-- The span of a node whose operands have these spans. -/
def joinSpans : Option (Nat × Nat) → Option (Nat × Nat) → Option (Nat × Nat)
  | some (a, b), some (c, d) => some (min a c, max b d)
  | span, none => span
  | none, span => span

theorem inputSpan_binary (id : Nat) (settled : Bool) (op : Operator) (l r : Expr) :
    (binary id settled op l r).inputSpan = joinSpans l.inputSpan r.inputSpan := rfl

/-- The inputs of an expression lie within its span. -/
theorem mem_inputSpan {e : Expr} {i : Nat} (hi : e.Mentions i) :
    ∃ lo hi, e.inputSpan = some (lo, hi) ∧ lo ≤ i ∧ i ≤ hi := by
  induction e with
  | literal id value => exact (not_mentions_literal hi).elim
  | input id index =>
    obtain rfl := mentions_input.1 hi
    exact ⟨index, index, rfl, Nat.le_refl _, Nat.le_refl _⟩
  | binary id settled op l r ihl ihr =>
    rw [inputSpan_binary]
    rcases mentions_binary.1 hi with hi | hi
    · obtain ⟨lo, hi, hspan, h₁, h₂⟩ := ihl hi
      rw [hspan]
      cases r.inputSpan with
      | none => exact ⟨lo, hi, rfl, h₁, h₂⟩
      | some span => exact ⟨_, _, rfl, by omega, by omega⟩
    · obtain ⟨lo, hi, hspan, h₁, h₂⟩ := ihr hi
      rw [hspan]
      cases l.inputSpan with
      | none => exact ⟨lo, hi, rfl, h₁, h₂⟩
      | some span => exact ⟨_, _, rfl, by omega, by omega⟩

/-- An input is never missing where all that occur are bound. -/
theorem valueOn_bound {a : Assignment} {e : Expr} (ha : ∀ i, e.Mentions i → a.get? i ≠ none)
    (i : Nat) : valueOn a e ≠ .error (.unboundInput i) := by
  induction e with
  | literal id value => nofun
  | input id index =>
    rw [valueOn]
    cases hv : a.get? index with
    | none => exact (ha index (mentions_input.2 rfl) hv).elim
    | some value => nofun
  | binary id settled op l r ihl ihr =>
    have hl := ihl fun i hi => ha i (mentions_binary.2 (.inl hi))
    have hr := ihr fun i hi => ha i (mentions_binary.2 (.inr hi))
    rw [valueOn]
    cases hx : valueOn a l with
    | error f => exact fun h => hl (hx.trans h)
    | ok x =>
      cases hy : valueOn a r with
      | error f => exact fun h => hr (hy.trans h)
      | ok y =>
        exact op.apply_bound x y i

/-- A value depends on no other inputs than those that occur. -/
theorem valueOn_congr {a b : Assignment} {e : Expr}
    (hab : ∀ i, e.Mentions i → a.get? i = b.get? i) : valueOn a e = valueOn b e := by
  induction e with
  | literal id value => rfl
  | input id index => rw [valueOn, valueOn, hab index (mentions_input.2 rfl)]
  | binary id settled op l r ihl ihr =>
    rw [valueOn, valueOn, ihl fun i hi => hab i (mentions_binary.2 (.inl hi)),
      ihr fun i hi => hab i (mentions_binary.2 (.inr hi))]

end Expr

end InputSolver
