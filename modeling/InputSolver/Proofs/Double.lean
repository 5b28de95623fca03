/-
  InputSolver — doubles as probabilities.

  * `nearest_atMostOne`: the double nearest to a quotient that is at most 1 is
    at most 1, too;
  * `isCertain_nearest_self`: that of 1 is certainty;
  * `div_ofNat_atMostOne`: the quotient of two natural numbers, each rounded
    first, is at most 1 if theirs is.
-/
import Mathlib.Algebra.Ring.Nat
import InputSolver.Random.Source

namespace InputSolver

/-- Rounding does not pass a natural number. -/
theorem roundHalfEven_le {num den k : Nat} (hden : 0 < den) (h : num ≤ k * den) :
    roundHalfEven num den ≤ k := by
  refine Nat.le_of_not_lt fun hlt => ?_
  have hmul := Nat.mul_le_mul_left (2 * den) hlt
  have hnear : 2 * den * roundHalfEven num den ≤ 2 * num + den := (roundHalfEven_near hden).2
  rw [Nat.mul_succ, Nat.mul_assoc 2 den k, Nat.mul_comm den k] at hmul
  omega

theorem roundHalfEven_mul_self {den : Nat} (hden : 0 < den) (k : Nat) :
    roundHalfEven (den * k) den = k := by
  unfold roundHalfEven
  simp only [Nat.mul_div_right k hden, Nat.mul_mod_right, Nat.mul_zero, if_pos hden]

theorem roundHalfEven_one (n : Nat) : roundHalfEven n 1 = n := by
  have h := roundHalfEven_mul_self Nat.one_pos n
  rwa [Nat.one_mul] at h

theorem le_roundHalfEven {num den k : Nat} (hden : 0 < den) (h : k * den ≤ num) :
    k ≤ roundHalfEven num den := by
  have hk : k ≤ num / den := (Nat.le_div_iff_mul_le hden).2 h
  unfold roundHalfEven
  simp only
  split
  · exact hk
  · split <;> omega

theorem roundHalfEven_mono {num num' den : Nat} (hden : 0 < den) (h : num ≤ num') :
    roundHalfEven num den ≤ roundHalfEven num' den := by
  have hdiv := Nat.div_le_div_right (c := den) h
  rcases Nat.lt_or_eq_of_le hdiv with hlt | heq
  · refine Nat.le_trans (roundHalfEven_le hden (k := num / den + 1) ?_)
      (le_roundHalfEven hden ((Nat.le_div_iff_mul_le hden).1 hlt))
    exact Nat.le_of_lt (Nat.lt_mul_of_div_lt (Nat.lt_succ_self _) hden)
  · -- with one quotient the remainders decide
    have hnum := Nat.div_add_mod num den
    have hnum' := Nat.div_add_mod num' den
    rw [← heq] at hnum'
    unfold roundHalfEven
    simp only [← heq]
    split <;> split <;> (try split) <;> (try split) <;> omega

namespace Double

/-- A number is no larger than 1. -/
def AtMostOne (d : Double) : Prop := d.ratio.1 ≤ d.ratio.2

instance (d : Double) : Decidable d.AtMostOne := inferInstanceAs (Decidable (_ ≤ _))

/-- A quotient that is at most 1 is not rounded past 1. -/
theorem scaled_atMostOne {num den : Nat} {e : Int} (he : e ≤ 0) (hden : 0 < den)
    (h : num ≤ den) : (scaled num den e).AtMostOne := by
  have htoNat : e.toNat = 0 := Int.toNat_eq_zero.2 he
  have hround : roundHalfEven (num * Nat.pow 2 (-e).toNat) (den * Nat.pow 2 e.toNat) ≤
      Nat.pow 2 (-e).toNat := by
    rw [htoNat]
    refine roundHalfEven_le (Nat.mul_pos hden (by decide)) ?_
    rw [Nat.mul_comm]
    exact Nat.mul_le_mul_left _ (Nat.le_trans h (Nat.le_of_eq (Nat.mul_one den).symm))
  change roundHalfEven _ _ * Nat.pow 2 e.toNat ≤ Nat.pow 2 (-e).toNat
  rw [htoNat] at hround ⊢
  exact Nat.le_trans (Nat.le_of_eq (Nat.mul_one _)) hround

/-- A quotient that is at most 1 has a double that is at most 1. -/
theorem nearest_atMostOne {num den : Nat} (hden : 0 < den) (h : num ≤ den) :
    (nearest num den).AtMostOne := by
  unfold nearest
  split
  · decide
  · rename_i hnum
    have hlog : Nat.log2 num ≤ Nat.log2 den := by
      rw [Nat.le_log2 (Nat.ne_of_gt hden)]
      exact Nat.le_trans (Nat.log2_self_le hnum) h
    simp only
    split
    · exact scaled_atMostOne (by omega) hden h
    · exact scaled_atMostOne (by omega) hden h

/-- The double nearest to 1 is certainty. -/
theorem isCertain_nearest_self {n : Nat} (hn : 0 < n) :
    Random.isCertain (nearest n n) = true := by
  have hexponent : (Nat.log2 n : Int) - Nat.log2 n - 52 = -52 := by omega
  have hnearest : nearest n n = ⟨Nat.pow 2 52, -52⟩ := by
    unfold nearest
    rw [if_neg (Nat.ne_of_gt hn)]
    simp only [hexponent]
    have hnot : ¬n * Nat.pow 2 52 < Nat.pow 2 52 * (n * 1) := by
      rw [Nat.mul_one, Nat.mul_comm]
      exact Nat.lt_irrefl _
    refine (if_neg hnot).trans ?_
    change Double.mk (roundHalfEven (n * Nat.pow 2 52) (n * 1)) (-52) = _
    rw [Nat.mul_one, roundHalfEven_mul_self hn]
  rw [hnearest]
  decide

/-! ## Rounded numbers -/

/-- The distance of the doubles around a natural number, where they are
    integers. -/
def spacing (n : Nat) : Nat := 2 ^ (Nat.log2 n - 52)

theorem spacing_pos (n : Nat) : 0 < spacing n := Nat.pow_pos (by decide)

/-- The natural number nearest to `n` that is a double. -/
def rounded (n : Nat) : Nat := roundHalfEven n (spacing n) * spacing n

/-- The double made of a natural number is that natural number rounded. -/
theorem ratio_ofNat (n : Nat) : (ofNat n).ratio.1 = rounded n * (ofNat n).ratio.2 := by
  by_cases hn : n = 0
  · subst hn
    decide
  have hlog := Nat.log2_self_le hn
  have hone : Nat.log2 1 = 0 := by decide
  obtain ⟨e, he⟩ : ∃ e : Int, e = Nat.log2 n - Nat.log2 1 - 52 := ⟨_, rfl⟩
  have hof : ofNat n = scaled n 1 e := by
    unfold ofNat nearest
    rw [if_neg hn]
    simp only [← he]
    refine if_neg ?_
    have hpow : 2 ^ 52 * 2 ^ e.toNat = 2 ^ Nat.log2 n * 2 ^ (-e).toNat := by
      rw [← Nat.pow_add, ← Nat.pow_add]
      congr 1
      omega
    rw [Nat.not_lt, Nat.one_mul]
    exact Nat.le_trans (Nat.le_of_eq hpow) (Nat.mul_le_mul_right _ hlog)
  have hspacing : spacing n = 2 ^ e.toNat := by
    unfold spacing
    congr 1
    omega
  rw [hof, rounded, hspacing]
  change roundHalfEven (n * 2 ^ (-e).toNat) (1 * 2 ^ e.toNat) * 2 ^ e.toNat =
    roundHalfEven n (2 ^ e.toNat) * 2 ^ e.toNat * 2 ^ (-e).toNat
  rw [Nat.one_mul]
  rcases Int.le_total 0 e with hpos | hneg
  · rw [Int.toNat_eq_zero.2 (by omega : -e ≤ 0), Nat.pow_zero, Nat.mul_one, Nat.mul_one]
  · rw [Int.toNat_eq_zero.2 hneg, Nat.pow_zero, Nat.mul_one, Nat.mul_one, roundHalfEven_one,
      roundHalfEven_one]

/-- A natural number is not rounded past the next power of two, nor below the
    last one. -/
theorem rounded_bounds {n : Nat} (hn : n ≠ 0) :
    2 ^ Nat.log2 n ≤ rounded n ∧ rounded n ≤ 2 ^ (Nat.log2 n + 1) := by
  obtain ⟨k, hk⟩ : ∃ k, k = Nat.log2 n - (Nat.log2 n - 52) := ⟨_, rfl⟩
  have hlow : 2 ^ Nat.log2 n = 2 ^ k * spacing n := by
    rw [spacing, ← Nat.pow_add]
    congr 1
    omega
  have hhigh : 2 ^ (Nat.log2 n + 1) = 2 ^ (k + 1) * spacing n := by
    rw [Nat.pow_succ, hlow, Nat.pow_succ, Nat.mul_right_comm]
  rw [hlow, hhigh]
  constructor
  · refine Nat.mul_le_mul_right _ (le_roundHalfEven (spacing_pos n) ?_)
    rw [← hlow]
    exact Nat.log2_self_le hn
  · refine Nat.mul_le_mul_right _ (roundHalfEven_le (spacing_pos n) ?_)
    rw [← hhigh]
    exact Nat.le_of_lt Nat.lt_log2_self

/-- Rounding keeps the order of natural numbers. -/
theorem rounded_mono {n m : Nat} (h : n ≤ m) : rounded n ≤ rounded m := by
  by_cases hn : n = 0
  · subst hn
    exact Nat.zero_le _
  have hm : m ≠ 0 := by omega
  have hlog : Nat.log2 n ≤ Nat.log2 m := by
    rw [Nat.le_log2 hm]
    exact Nat.le_trans (Nat.log2_self_le hn) h
  rcases Nat.lt_or_eq_of_le hlog with hlt | heq
  · calc rounded n ≤ 2 ^ (Nat.log2 n + 1) := (rounded_bounds hn).2
      _ ≤ 2 ^ Nat.log2 m := Nat.pow_le_pow_right (by decide) hlt
      _ ≤ rounded m := (rounded_bounds hm).1
  · have hspacing : spacing n = spacing m := by rw [spacing, spacing, heq]
    rw [rounded, rounded, hspacing]
    exact Nat.mul_le_mul_right _ (roundHalfEven_mono (spacing_pos m) h)

/-- The quotient of a natural number by a higher one, both rounded first, is at
    most 1. -/
theorem div_ofNat_atMostOne {n m : Nat} (hm : 0 < m) (h : n ≤ m) :
    ((ofNat n).div (ofNat m)).AtMostOne := by
  have hpos (k : Nat) : 0 < (ofNat k).ratio.2 := Nat.pow_pos (by decide)
  have hrounded : 0 < rounded m :=
    Nat.lt_of_lt_of_le (Nat.pow_pos (by decide)) (rounded_bounds (Nat.ne_of_gt hm)).1
  refine nearest_atMostOne ?_ ?_
  · rw [ratio_ofNat m]
    exact Nat.mul_pos (hpos n) (Nat.mul_pos hrounded (hpos m))
  · rw [ratio_ofNat n, ratio_ofNat m]
    calc rounded n * (ofNat n).ratio.2 * (ofNat m).ratio.2
        ≤ rounded m * (ofNat n).ratio.2 * (ofNat m).ratio.2 :=
          Nat.mul_le_mul_right _ (Nat.mul_le_mul_right _ (rounded_mono h))
      _ = (ofNat n).ratio.2 * (rounded m * (ofNat m).ratio.2) := by
          rw [Nat.mul_comm (rounded m), Nat.mul_assoc]

end Double

end InputSolver
