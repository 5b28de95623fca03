/-
  InputSolver — numbers with a fixed number of decimals.

  * `roundHalfEven` is the natural number nearest to a quotient, the even one
    of two that are equally near;
  * `fixed` writes a quotient with a fixed number of decimals, rounded so.
-/
namespace InputSolver

/-- The natural number nearest to `num / den`; of two equally near ones, the
    even one. -/
def roundHalfEven (num den : Nat) : Nat :=
  let q := num / den
  let r := num % den
  if 2 * r < den then q
  else if den < 2 * r then q + 1
  else q + q % 2

theorem roundHalfEven_near {num den : Nat} (h : 0 < den) :
    2 * num ≤ 2 * den * roundHalfEven num den + den ∧
      2 * den * roundHalfEven num den ≤ 2 * num + den := by
  have hdiv := Nat.div_add_mod num den
  have hmod := Nat.mod_lt num h
  have hmul : 2 * den * (num / den) = 2 * (den * (num / den)) := Nat.mul_assoc ..
  unfold roundHalfEven
  simp only
  split
  · omega
  · split
    · rw [Nat.mul_add, Nat.mul_one]; omega
    · rw [Nat.mul_add]
      have := Nat.mod_lt (num / den) (by decide : 0 < 2)
      rcases (by omega : num / den % 2 = 0 ∨ num / den % 2 = 1) with h' | h' <;> rw [h'] <;> omega

namespace Text

/-- A natural number in decimal, with zeros in front up to a width. -/
def padded (width n : Nat) : String :=
  let s := toString n
  String.ofList (List.replicate (width - s.length) '0') ++ s

/-- The quotient `num / den` with a fixed number of decimals, and a point if
    there are any. -/
def fixed (places num den : Nat) : String :=
  let unit := Nat.pow 10 places
  let n := roundHalfEven (num * unit) den
  toString (n / unit) ++ (if places = 0 then "" else "." ++ padded places (n % unit))

end Text

end InputSolver
