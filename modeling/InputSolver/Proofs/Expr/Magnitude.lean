/-
  InputSolver — magnitudes and ranges of expressions.

  The `magnitude` of an expression limits its values over digits, and an
  expression is `Bounded` where the magnitude of every node is below `2^62`.
  Nothing wraps around or saturates there.

  * `Operator.range_of_bounded`: the range of an operator contains what the
    operator gives for values of its operands;
  * `range_of_bounded`: a bounded expression has a range, of no more than its
    magnitude, with every value over digits.
-/
import InputSolver.Proofs.Expr.Inputs
import InputSolver.Proofs.Range.Remainder

namespace InputSolver

namespace Operator

/-- The magnitude of results for operands of two magnitudes. -/
def magnitude : Operator → Nat → Nat → Nat
  | add, m, n => m + n
  | mul, m, n => m * n
  | div, m, _ => m
  | mod, m, _ => m
  | eql, _, _ => 1

theorem magnitude_mono (op : Operator) {m m' n n' : Nat} (hm : m ≤ m') (hn : n ≤ n') :
    op.magnitude m n ≤ op.magnitude m' n' := by
  cases op
  · exact Nat.add_le_add hm hn
  · exact Nat.mul_le_mul hm hn
  · exact hm
  · exact hm
  · exact Nat.le_refl 1

theorem magnitude_pos (op : Operator) {m n : Nat} (hm : 0 < m) (hn : 0 < n) :
    0 < op.magnitude m n := by
  cases op
  · exact Nat.add_pos_left hm n
  · exact Nat.mul_pos hm hn
  · exact hm
  · exact hm
  · exact Nat.one_pos

section Range

variable {M N : Nat} (hM : M < Word.halfBound) (hN : N < Word.halfBound)
include hM hN

/-- The range of an operator contains what it gives for values of its
    operands. -/
theorem range_of_bounded {op : Operator} (hK : op.magnitude M N < Word.halfBound) {r s : Range}
    (hr : r.Bounded M) (hs : s.Bounded N) :
    ∃ t, op.range r s = .ok t ∧ t.Bounded (op.magnitude M N) ∧
      ∀ a b v : Word, a.toInt ∈ r → b.toInt ∈ s → op.apply a b = .ok v → v.toInt ∈ t := by
  cases op with
  | add =>
    obtain ⟨t, ht, hb, hx⟩ := Range.sum_of_bounded hK hr hs
    refine ⟨t, ht, hb, fun a b v ha hb' hv => ?_⟩
    cases hv
    rw [Word.toInt_add (Range.inRange_add hK (hr.of_mem ha) (hs.of_mem hb'))]
    exact hx _ _ ha hb'
  | mul =>
    obtain ⟨t, ht, hb, hx⟩ := Range.product_of_bounded hK hM hN hr hs
    refine ⟨t, ht, hb, fun a b v ha hb' hv => ?_⟩
    cases hv
    rw [Word.toInt_mul (Range.inRange_mul hK (hr.of_mem ha) (hs.of_mem hb'))]
    exact hx _ _ ha hb'
  | div =>
    obtain ⟨t, ht, hb, hx⟩ := Range.quotient_of_bounded hM hN hr hs
    refine ⟨t, ht, hb, fun a b v ha hb' hv => ?_⟩
    simp only [apply] at hv
    split at hv
    · cases hv
    · rename_i h0
      cases hv
      rw [Range.toInt_div_of_bounded hM (hr.of_mem ha)]
      exact hx _ _ ha hb' (Word.ne_zero_iff.1 h0)
  | mod =>
    obtain ⟨t, ht, hb, hx⟩ := Range.remainder_of_bounded hM hN hr hs
    refine ⟨t, ht, hb, fun a b v ha hb' hv => ?_⟩
    simp only [apply] at hv
    split at hv
    · cases hv
    · rename_i h0
      cases hv
      rw [Int64.toInt_mod]
      exact hx _ _ ha hb' (Word.ne_zero_iff.1 h0)
  | eql =>
    refine ⟨_, rfl, Range.bounded_progression (Nat.zero_le 1) (Nat.le_refl 1) 1,
      fun a b v _ _ hv => ?_⟩
    cases hv
    refine Range.mem_progression.2 ?_
    split
    · exact Progression.mem_new_one (by decide) (by decide)
    · exact Progression.mem_new_one (by decide) (by decide)

end Range

end Operator

namespace Expr

/-- A limit on the values of an expression over digits. -/
def magnitude : Expr → Nat
  | literal _ value => max 1 value.toInt.natAbs
  | input _ _ => 9
  | binary _ _ op l r => op.magnitude l.magnitude r.magnitude

/-- The magnitude of every node is below `2^62`. -/
def Bounded (e : Expr) : Prop := ∀ n ∈ e.nodes, n.magnitude < Word.halfBound

instance (e : Expr) : Decidable e.Bounded :=
  inferInstanceAs (Decidable (∀ n ∈ e.nodes, n.magnitude < Word.halfBound))

theorem magnitude_pos (e : Expr) : 0 < e.magnitude := by
  induction e with
  | literal id value => exact Nat.lt_of_lt_of_le Nat.one_pos (Nat.le_max_left ..)
  | input id index => exact Nat.succ_pos 8
  | binary id settled op l r ihl ihr => exact op.magnitude_pos ihl ihr

/-! ## Nodes -/

theorem Bounded.magnitude_lt {e : Expr} (h : e.Bounded) : e.magnitude < Word.halfBound :=
  h e e.self_mem_nodes

theorem bounded_literal {id : Nat} {value : Word} :
    (literal id value).Bounded ↔ value.toInt.natAbs < Word.halfBound := by
  unfold Bounded Word.halfBound
  simp only [nodes, List.mem_singleton, forall_eq, magnitude]
  omega

theorem bounded_input (id index : Nat) : (input id index).Bounded := by
  intro n hn
  obtain rfl := List.mem_singleton.1 hn
  change 9 < Word.halfBound
  decide

theorem bounded_binary {id : Nat} {settled : Bool} {op : Operator} {l r : Expr} :
    (binary id settled op l r).Bounded ↔
      op.magnitude l.magnitude r.magnitude < Word.halfBound ∧ l.Bounded ∧ r.Bounded := by
  unfold Bounded
  simp only [mem_nodes_binary, or_imp, forall_and, forall_eq, magnitude]

theorem Bounded.left {id : Nat} {settled : Bool} {op : Operator} {l r : Expr}
    (h : (binary id settled op l r).Bounded) : l.Bounded := (bounded_binary.1 h).2.1

theorem Bounded.right {id : Nat} {settled : Bool} {op : Operator} {l r : Expr}
    (h : (binary id settled op l r).Bounded) : r.Bounded := (bounded_binary.1 h).2.2

/-! ## Values -/

/-- The value of an operation comes from values of its operands. -/
theorem valueOn_binary {a : Assignment} {id : Nat} {settled : Bool} {op : Operator} {l r : Expr}
    {v : Word} : valueOn a (binary id settled op l r) = .ok v ↔
      ∃ x y, valueOn a l = .ok x ∧ valueOn a r = .ok y ∧ op.apply x y = .ok v := by
  simp only [valueOn]
  cases valueOn a l with
  | error f =>
    constructor
    · intro h
      cases h
    · rintro ⟨x, y, hx, -⟩
      cases hx
  | ok x =>
    cases valueOn a r with
    | error f =>
      constructor
      · intro h
        cases h
      · rintro ⟨x, y, -, hy, -⟩
        cases hy
    | ok y =>
      constructor
      · intro h
        exact ⟨x, y, rfl, rfl, h⟩
      · rintro ⟨x', y', ⟨⟩, ⟨⟩, h⟩
        exact h

theorem valueOn_input {a : Assignment} {id index : Nat} {v : Word} :
    valueOn a (input id index) = .ok v ↔ a.get? index = some v := by
  simp only [valueOn]
  cases a.get? index with
  | none =>
    constructor
    · intro h
      cases h
    · intro h
      cases h
  | some w => simp

/-- A value needs every input that occurs. -/
theorem bound_of_valueOn {a : Assignment} {e : Expr} {v : Word} (hv : valueOn a e = .ok v) {i : Nat}
    (hi : e.Mentions i) : ∃ d, a.get? i = some d := by
  induction e generalizing v with
  | literal id value => exact (not_mentions_literal hi).elim
  | input id index =>
    obtain rfl := mentions_input.1 hi
    exact ⟨v, valueOn_input.1 hv⟩
  | binary id settled op l r ihl ihr =>
    obtain ⟨x, y, hx, hy, -⟩ := valueOn_binary.1 hv
    exact (mentions_binary.1 hi).elim (ihl hx) (ihr hy)

/-- More inputs do not change a value. -/
theorem valueOn_extend {a b : Assignment} (hab : a.ExtendedBy b) {e : Expr} {v : Word}
    (hv : valueOn a e = .ok v) : valueOn b e = .ok v := by
  induction e generalizing v with
  | literal id value => exact hv
  | input id index => exact valueOn_input.2 (hab index v (valueOn_input.1 hv))
  | binary id settled op l r ihl ihr =>
    obtain ⟨x, y, hx, hy, hxy⟩ := valueOn_binary.1 hv
    exact valueOn_binary.2 ⟨x, y, ihl hx, ihr hy, hxy⟩

/-- A bounded expression has a range of no more than its magnitude, with every
    value over digits. -/
theorem range_of_bounded {e : Expr} (he : e.Bounded) :
    ∃ r, e.range = .ok r ∧ r.Bounded e.magnitude ∧
      ∀ (a : Assignment) (v : Word), a.Digits → valueOn a e = .ok v → v.toInt ∈ r := by
  induction e with
  | literal id value =>
    refine ⟨_, range_literal id value, Range.bounded_single (Nat.le_max_right ..),
      fun a v _ hv => ?_⟩
    cases hv
    exact Range.mem_single.2 rfl
  | input id index =>
    refine ⟨_, range_input id index,
      Range.bounded_progression (M := 9) (by decide) (by decide) 1, fun a v ha hv => ?_⟩
    have hdigit := ha index v (valueOn_input.1 hv)
    simp only [Digit.isDigit, Bool.and_eq_true, decide_eq_true_eq, Int64.le_iff_toInt_le] at hdigit
    exact Range.mem_progression.2 (Progression.mem_new_one hdigit.1 hdigit.2)
  | binary id settled op l r ihl ihr =>
    obtain ⟨hK, hl, hr⟩ := bounded_binary.1 he
    obtain ⟨s, hs, hsb, hsv⟩ := ihl hl
    obtain ⟨t, ht, htb, htv⟩ := ihr hr
    obtain ⟨u, hu, hub, huv⟩ := Operator.range_of_bounded hl.magnitude_lt hr.magnitude_lt hK hsb htb
    refine ⟨u, ?_, hub, fun a v ha hv => ?_⟩
    · rw [range_binary, hs, ht]
      exact hu
    · obtain ⟨x, y, hx, hy, hxy⟩ := valueOn_binary.1 hv
      exact huv x y v (hsv a x ha hx) (htv a y ha hy) hxy

/-- What the range of a bounded expression contains. -/
theorem Bounded.of_range {e : Expr} (he : e.Bounded) {r : Range} (hr : e.range = .ok r) :
    r.Bounded e.magnitude ∧
      ∀ (a : Assignment) (v : Word), a.Digits → valueOn a e = .ok v → v.toInt ∈ r := by
  obtain ⟨s, hs, hspec⟩ := range_of_bounded he
  cases hr.symm.trans hs
  exact hspec

/-- A value of a bounded expression over digits is no larger than its
    magnitude. -/
theorem Bounded.natAbs_le {e : Expr} (he : e.Bounded) {a : Assignment} (ha : a.Digits) {v : Word}
    (hv : valueOn a e = .ok v) : v.toInt.natAbs ≤ e.magnitude := by
  obtain ⟨r, -, hb, hx⟩ := range_of_bounded he
  exact hb.of_mem (hx a v ha hv)

end Expr

end InputSolver
