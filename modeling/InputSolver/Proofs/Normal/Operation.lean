/-
  InputSolver — normal forms of operations.

  * `eql_meets`: an equality test yields what the operator gives;
  * `operation_meets`: so does the normal form of any operator, of no more
    than the magnitude that the operator allows;
  * `mod_lowest_input`: a remainder of the lowest word is not made, since its
    range is not.
-/
import InputSolver.Normal.Operation
import InputSolver.Proofs.Normal.Remainder
import InputSolver.Proofs.Range.Extremes

namespace InputSolver.Normal

open InputSolver.Expr

variable {S : Nat → Prop} {P : Prop} {h : Heap} {reuse? : Option Expr}

/-- The equality test with a literal on the right. -/
theorem eqlOrdered_meets (hreuse : Reusable h .eql reuse?) {l r : Expr} (hl : Operand h S P l)
    (hr : Operand h S P r) :
    (eqlOrdered reuse? l r).Meets h P fun k e => Yields k S P 1 (Operator.eql.Gives l r) e := by
  have hone (_ : P) : Operator.eql.magnitude l.magnitude r.magnitude < Word.halfBound := by
    change 1 < Word.halfBound
    decide
  unfold eqlOrdered
  refine (range_meets hl.bounded).bind fun k rl _ hk => ?_
  obtain ⟨rfl, hrl⟩ := hk
  refine (range_meets hr.bounded).bind fun m rr _ hm => ?_
  obtain ⟨rfl, hrr⟩ := hm
  split
  · split
    · rename_i halike
      have halike := alike_of_holds hl.holds hr.holds halike
      refine literal_meets hone (fun _ => Nat.le_refl 1) ?_
      rintro - a v - ⟨x, y, hx, hy, hxy⟩
      rw [halike.valueOn_eq, hy] at hx
      cases hx
      rw [Operator.apply, if_pos rfl] at hxy
      exact Except.ok.inj hxy
    · exact finish_meets hone hreuse hl hr
  · rename_i hmeets
    refine literal_meets hone (fun _ => Nat.zero_le 1) ?_
    rintro hp a v ha ⟨x, y, hx, hy, hxy⟩
    -- equal values would be common to both ranges
    have hne : x ≠ y := by
      rintro rfl
      exact hmeets (Range.meets_of_mem (((hl.bounded hp).of_range hrl).2 a x ha hx)
        (((hr.bounded hp).of_range hrr).2 a x ha hy))
    rw [Operator.apply, if_neg hne] at hxy
    exact Except.ok.inj hxy

/-- The equality test of two expressions. -/
theorem eql_meets (hreuse : Reusable h .eql reuse?) {l r : Expr} (hl : Operand h S P l)
    (hr : Operand h S P r) :
    (eql reuse? l r).Meets h P fun k e => Yields k S P 1 (Operator.eql.Gives l r) e := by
  unfold eql
  split
  · rename_i i a j b
    refine literal_meets (fun _ => by decide) (fun _ => by split <;> decide) ?_
    rintro - w v - ⟨x, y, hx, hy, hxy⟩
    cases hx
    cases hy
    exact Except.ok.inj hxy
  · refine (eqlOrdered_meets (reusable_none h .eql) hr hl).yields_imp (fun _ => Nat.le_refl 1) ?_
    rintro - w v - ⟨x, y, hx, hy, hxy⟩
    refine ⟨y, x, hy, hx, ?_⟩
    simp only [Operator.apply, eq_comm (a := y)]
    exact hxy
  · exact eqlOrdered_meets hreuse hl hr

/-- The normal form of an operator on two operands. -/
theorem operation_meets {op : Operator} (hreuse : Reusable h op reuse?) {l r : Expr}
    (hl : Operand h S P l) (hr : Operand h S P r)
    (hK : P → op.magnitude l.magnitude r.magnitude < Word.halfBound) :
    (operation reuse? op l r).Meets h P fun k e =>
      Yields k S P (op.magnitude l.magnitude r.magnitude) (op.Gives l r) e := by
  cases op with
  | add =>
    have hle := Nat.add_le_add l.extent_le_magnitude r.extent_le_magnitude
    exact (add_meets hreuse hl hr fun hp => Nat.lt_of_le_of_lt hle (hK hp)).yields_imp
      (fun _ => hle) fun _ _ _ _ hv => hv
  | mul =>
    have hle := Nat.mul_le_mul l.extent_le_magnitude r.extent_le_magnitude
    exact (mul_meets hreuse hl hr fun hp => Nat.lt_of_le_of_lt hle (hK hp)).yields_imp
      (fun _ => hle) fun _ _ _ _ hv => hv
  | div => exact div_meets hreuse hl hr
  | mod => exact mod_meets hreuse hl hr
  | eql => exact eql_meets hreuse hl hr

/-- The operation on expressions that stand for the operands of a node stands
    for the node. -/
theorem operation_meets_node {e : Expr} {id : Nat} {settled : Bool} {op : Operator}
    {l r l' r' : Expr} {Vl Vr V : Assignment → Word → Prop} (heq : e = .binary id settled op l r)
    (he : h.Holds e) (hP : P → e.Bounded) (hl : Yields h S P l.magnitude Vl l')
    (hr : Yields h S P r.magnitude Vr r') (hV : P → ∀ a v, a.Digits → V a v →
      ∃ x y, Vl a x ∧ Vr a y ∧ op.apply x y = .ok v) :
    (operation (some e) op l' r').Meets h P fun k n => Yields k S P e.magnitude V n := by
  subst heq
  have hsize (hp : P) : op.magnitude l'.magnitude r'.magnitude ≤
      (Expr.binary id settled op l r).magnitude :=
    op.magnitude_mono (hl.magnitude_le l.magnitude_pos hp) (hr.magnitude_le r.magnitude_pos hp)
  refine (operation_meets (by rintro e ⟨⟩; exact ⟨he, rfl⟩) hl.toOperand hr.toOperand
    fun hp => Nat.lt_of_le_of_lt (hsize hp) (hP hp).magnitude_lt).yields_imp hsize
    fun hp a v ha hv => ?_
  obtain ⟨x, y, hx, hy, hxy⟩ := hV hp a v ha hv
  exact ⟨x, y, hl.value hp a x ha hx, hr.value hp a y ha hy, hxy⟩

/-! ## Operations that fault -/

/-- A node is not made if it has no range. -/
theorem finish_of_range_error {reuse? : Option Expr} {op : Operator} {l r e : Expr}
    {next next' : Nat} (hnode : node reuse? op l r next = .ok (e, next')) {fault : Fault}
    (hrange : e.range = .error fault) : finish reuse? op l r next = .error fault := by
  unfold finish
  change (node reuse? op l r next >>= fun p => _) = _
  rw [hnode]
  change (((e.range >>= fun r => pure (r, next')) : Except Fault (Range × Nat)) >>= _) = _
  rw [hrange]
  rfl

/-- The digits are several divisors. -/
theorem remainder_lowest_digits :
    (Range.single Int64.minValue).remainder (.progression Digit.lowest Digit.highest 1) =
      .error .overflow := by
  have hdivisors : (Range.progression Digit.lowest Digit.highest 1).withoutZero =
      .ok (.progression Digit.lowest Digit.highest 1) :=
    Range.ofProgressions_singleton (.new Digit.lowest Digit.highest 1)
  have hseveral : (Range.progression Digit.lowest Digit.highest 1).singleValue? = none := by decide
  exact Range.remainder_lowest (List.pairwise_singleton ..) (by decide) hdivisors (by decide)
    (fun _ _ _ hb => Option.some_ne_none _ (hb.symm.trans hseveral)) (by decide)

/-- The remainder of the lowest word by an input is not made. -/
theorem mod_lowest_input {reuse? : Option Expr} {i j index id next next' : Nat} {settled : Bool}
    (hnode : node reuse? .mod (.literal i Int64.minValue) (.input j index) next =
      .ok (.binary id settled .mod (.literal i Int64.minValue) (.input j index), next')) :
    operation reuse? .mod (.literal i Int64.minValue) (.input j index) next = .error .overflow := by
  have hrange : (Expr.binary id settled .mod (.literal i Int64.minValue) (.input j index)).range =
      .error .overflow := by
    rw [range_binary, range_literal, range_input]
    exact remainder_lowest_digits
  have hvalue : ¬ (Expr.literal i Int64.minValue).literal? = some 0 :=
    fun h => absurd (Option.some.inj h) (by decide)
  rw [operation, mod, if_neg hvalue]
  · exact finish_of_range_error hnode hrange
  · nofun

end InputSolver.Normal
