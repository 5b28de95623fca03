/-
  InputSolver — ranges of expression graphs.

  * `range_sound`: a bounded expression has a range, of no more than its
    magnitude, with every value over digits; where the range is empty, the
    expression divides by zero whatever the digits are.
-/
import InputSolver.Proofs.Expr.Evaluate

namespace InputSolver.Expr

/-- With all inputs bound, an expression has a value or divides by zero. -/
theorem valueOn_error {a : Assignment} {e : Expr} (ha : ∀ i, e.Mentions i → a.get? i ≠ none)
    {f : EvalError} (hf : valueOn a e = .error f) : f = .divisionByZero := by
  cases f with
  | unboundInput i => exact (valueOn_bound ha i hf).elim
  | divisionByZero => rfl

/-- A bounded expression has a range whose bounds are no larger than its
    magnitude, and which includes every value over digits.  If the range is
    empty, the expression divides by zero under all digits. -/
theorem range_sound {e : Expr} (hgraph : Coherent [e]) (hb : e.Bounded) :
    ∃ r, e.range = .ok r ∧
      (∀ p ∈ r.members, p.min.toInt.natAbs ≤ e.magnitude ∧ p.max.toInt.natAbs ≤ e.magnitude) ∧
      (∀ a v, a.Digits → e.evaluate a = .ok v → r.includes v = true) ∧
      (r.isEmpty = true → ∀ a, a.Digits → (∀ i, e.Mentions i → a.get? i ≠ none) →
        e.evaluate a = .error .divisionByZero) := by
  obtain ⟨h, hholds⟩ := Heap.exists_holds hgraph
  have heval := evaluate_eq_valueOn (hholds e List.mem_cons_self)
  obtain ⟨r, hr, hbounds, hvalue⟩ := range_of_bounded hb
  refine ⟨r, hr, hbounds, fun a v ha hv => ?_, fun hempty a ha hall => ?_⟩
  · exact Range.includes_iff.2 (hvalue a v ha (heval a ▸ hv))
  · rw [heval]
    cases hv : valueOn a e with
    | ok v => exact (Range.isEmpty_iff.1 hempty v.toInt (hvalue a v ha hv)).elim
    | error f => rw [valueOn_error hall hv]

/-- `(i0 * 26 + i1) / (i0 % 1)`, in which the node of `i0` is shared.  The
    divisor is 0 on all digits. -/
def zeroDivisor : Expr :=
  .binary 7 false .div
    (.binary 4 false .add (.binary 2 false .mul (.input 0 0) (.literal 1 26)) (.input 3 1))
    (.binary 6 false .mod (.input 0 0) (.literal 5 1))

theorem coherent_zeroDivisor : Coherent [zeroDivisor] := by
  simp [Coherent, zeroDivisor, nodes, id]

/-- The remainders by 1. -/
theorem remainder_one :
    (Range.progression Digit.lowest Digit.highest 1).remainder (.single 1) = .ok (.single 0) := by
  have hwithout : (Range.single 1).withoutZero = .ok (.single 1) :=
    Range.ofProgressions_singleton (.single 1)
  have houter : Range.outerBounds (Range.progression Digit.lowest Digit.highest 1).signParts
      (Word.clamp (Range.largestMagnitude (.single 1) - 1)) = some ⟨0, 0⟩ := by decide
  have hmoduli : (Range.single 1).values.map Word.satAbs = [1] := by decide
  have hparts : Range.remainderOfParts
      (Range.progression Digit.lowest Digit.highest 1).signParts (.single 1) = .ok (.single 0) := by
    rw [Range.remainderOfParts, houter]
    dsimp only
    rw [if_neg (by decide), hmoduli, List.mergeSort_singleton]
    rfl
  rw [Range.remainder, hwithout]
  exact hparts

/-- There are no quotients by zero. -/
theorem quotient_zero (r : Range) : r.quotient (.single 0) = .ok .empty := by
  have hwithout : (Range.single 0).withoutZero = .ok .empty := by
    change Range.ofProgressions [] = .ok .empty
    rw [Range.ofProgressions, List.mergeSort_nil]
    change Except.ok (Range.mk (List.mergeSort [] _)) = .ok .empty
    rw [List.mergeSort_nil]
    rfl
  rw [Range.quotient, hwithout]
  change Range.combine Range.quotientOperation r .empty = .ok .empty
  rw [Range.combine, show Range.isEmpty .empty = true from rfl, Bool.or_true, if_pos rfl]
  rfl

theorem range_zeroDivisor : zeroDivisor.range = .ok .empty := by
  obtain ⟨r, hr, -⟩ := range_of_bounded (e := .binary 4 false .add
    (.binary 2 false .mul (.input 0 0) (.literal 1 26)) (.input 3 1)) (by decide)
  rw [zeroDivisor, range_binary, hr, range_binary 6, range_input, range_literal]
  change (do r.quotient (← (Range.progression Digit.lowest Digit.highest 1).remainder (.single 1))) = _
  rw [remainder_one]
  exact quotient_zero r

/-- The empty range tells that there is no value. -/
theorem range_sound_zeroDivisor :
    zeroDivisor.Bounded ∧ ∃ r, zeroDivisor.range = .ok r ∧ r.isEmpty = true ∧
      zeroDivisor.evaluate (.ofDigits [3, 7]) = .error .divisionByZero := by
  have hb : zeroDivisor.Bounded := by decide
  obtain ⟨r, hr, -, -, hempty⟩ := range_sound coherent_zeroDivisor hb
  have hisEmpty : r.isEmpty = true := by
    obtain rfl := Except.ok.inj (hr.symm.trans range_zeroDivisor)
    rfl
  refine ⟨hb, r, hr, hisEmpty, hempty hisEmpty _ (by decide) fun i hi => ?_⟩
  simp only [zeroDivisor, mentions_binary, mentions_input, not_mentions_literal, or_false] at hi
  rcases hi with (rfl | rfl) | rfl <;> decide

end InputSolver.Expr
