/-
  InputSolver — division of integers towards zero.

  Quotients and remainders cut towards zero do not distribute over sums as
  those cut downwards do: both parts of the sum must have the same sign.

  * `add_tdiv_of_dvd`, `add_tmod_of_dvd`: a multiple of the divisor splits off
    a sum of parts of one sign;
  * `tdiv_tdiv_of_nonneg`, `mul_tdiv_mul_of_ne`: divisors fold and cancel.
-/
namespace InputSolver.Division

/-- Two integers are both at or above zero, or both at or below. -/
def SameSign (x y : Int) : Prop := 0 ≤ x ∧ 0 ≤ y ∨ x ≤ 0 ∧ y ≤ 0

theorem add_tdiv_of_dvd {x y c : Int} (hc : c ∣ x) (hs : SameSign x y) :
    (x + y).tdiv c = x.tdiv c + y.tdiv c := by
  have nonneg {x y : Int} (hc : c ∣ x) (hx : 0 ≤ x) (hy : 0 ≤ y) :
      (x + y).tdiv c = x.tdiv c + y.tdiv c := by
    rw [Int.tdiv_eq_ediv_of_nonneg hx, Int.tdiv_eq_ediv_of_nonneg hy,
      Int.tdiv_eq_ediv_of_nonneg (by omega), Int.add_ediv_of_dvd_left hc]
  rcases hs with ⟨hx, hy⟩ | ⟨hx, hy⟩
  · exact nonneg hc hx hy
  · have hneg := nonneg (Int.dvd_neg.2 hc) (Int.neg_nonneg_of_nonpos hx)
      (Int.neg_nonneg_of_nonpos hy)
    rw [← Int.neg_add, Int.neg_tdiv, Int.neg_tdiv, Int.neg_tdiv] at hneg
    omega

theorem add_tmod_of_dvd {x y c : Int} (hc : c ∣ x) (hs : SameSign x y) :
    (x + y).tmod c = y.tmod c := by
  have hx := Int.mul_tdiv_cancel' hc
  rw [Int.tmod_def, Int.tmod_def, add_tdiv_of_dvd hc hs, Int.mul_add, hx]
  omega

/-- Quotients of multiples add up whatever their signs. -/
theorem add_tdiv_of_dvd_of_dvd {x y c : Int} (hx : c ∣ x) (hy : c ∣ y) :
    (x + y).tdiv c = x.tdiv c + y.tdiv c := by
  by_cases hc : c = 0
  · simp [hc]
  · obtain ⟨p, rfl⟩ := hx
    obtain ⟨q, rfl⟩ := hy
    rw [← Int.mul_add, Int.mul_tdiv_cancel_left _ hc, Int.mul_tdiv_cancel_left _ hc,
      Int.mul_tdiv_cancel_left _ hc]

theorem mul_tdiv_mul_of_ne {k : Int} (hk : k ≠ 0) (x c : Int) :
    (x * k).tdiv (k * c) = x.tdiv c := by
  rw [Int.mul_comm k c]
  rcases Int.lt_or_gt_of_ne hk with hneg | hpos
  · have := Int.mul_tdiv_mul_of_pos_left x c (Int.neg_pos_of_neg hneg)
    rwa [Int.mul_neg, Int.mul_neg, Int.neg_tdiv_neg] at this
  · exact Int.mul_tdiv_mul_of_pos_left x c hpos

theorem tdiv_tdiv_of_nonneg {b : Int} (hb : 0 ≤ b) (x c : Int) :
    (x.tdiv b).tdiv c = x.tdiv (b * c) := by
  have nonneg {x : Int} (hx : 0 ≤ x) : (x.tdiv b).tdiv c = x.tdiv (b * c) := by
    rw [Int.tdiv_eq_ediv_of_nonneg hx, Int.tdiv_eq_ediv_of_nonneg (Int.ediv_nonneg hx hb),
      Int.tdiv_eq_ediv_of_nonneg hx, Int.ediv_ediv_of_nonneg hb]
  rcases Int.le_total 0 x with hx | hx
  · exact nonneg hx
  · have hneg := nonneg (Int.neg_nonneg_of_nonpos hx)
    rw [Int.neg_tdiv, Int.neg_tdiv, Int.neg_tdiv] at hneg
    omega

theorem tdiv_eq_zero_of_natAbs_lt {x c : Int} (h : x.natAbs < c.natAbs) : x.tdiv c = 0 := by
  rw [← Int.natAbs_eq_zero, Int.natAbs_tdiv]
  exact Nat.div_eq_of_lt h

theorem tmod_eq_self_of_natAbs_lt {x c : Int} (h : x.natAbs < c.natAbs) : x.tmod c = x := by
  rw [Int.tmod_def, tdiv_eq_zero_of_natAbs_lt h, Int.mul_zero, Int.sub_zero]

end InputSolver.Division
