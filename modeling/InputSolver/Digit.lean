/-
  InputSolver — digits.

  Every input of a program is a digit from 1 to 9.
-/
import InputSolver.Word

namespace InputSolver.Digit

/-- The lowest digit an input can be. -/
def lowest : Word := 1

/-- The highest digit an input can be. -/
def highest : Word := 9

/-- The digits in ascending order. -/
def ascending : List Word := [1, 2, 3, 4, 5, 6, 7, 8, 9]

/-- Whether a word is a digit. -/
def isDigit (v : Word) : Bool := lowest ≤ v && v ≤ highest

theorem mem_ascending {v : Word} : v ∈ ascending ↔ isDigit v = true := by
  constructor
  · intro h
    simp only [ascending, List.mem_cons, List.not_mem_nil, or_false] at h
    rcases h with rfl | rfl | rfl | rfl | rfl | rfl | rfl | rfl | rfl <;> decide
  · intro h
    simp only [isDigit, lowest, highest, Bool.and_eq_true, decide_eq_true_eq,
      Int64.le_iff_toInt_le] at h
    obtain ⟨h₁, h₂⟩ := h
    change 1 ≤ v.toInt at h₁
    change v.toInt ≤ 9 at h₂
    have : v = Int64.ofInt v.toInt := by simp
    rw [this]
    generalize v.toInt = i at h₁ h₂
    obtain ⟨n, rfl⟩ := Int.eq_ofNat_of_zero_le (by omega : 0 ≤ i)
    match n, h₁, h₂ with
    | 1, _, _ | 2, _, _ | 3, _, _ | 4, _, _ | 5, _, _ | 6, _, _ | 7, _, _ | 8, _, _ | 9, _, _ =>
      decide
    | 0, h, _ => omega
    | n + 10, _, h => omega

end InputSolver.Digit
