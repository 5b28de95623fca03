/-
  InputSolver — digits to try.

  * `randomDigits` draws digits;
  * `edgeDigits` are the lists of lowest and highest digits, all the same or
    in turn.
-/
import InputSolver.Digit
import InputSolver.Random.Source

namespace InputSolver.Generate

variable {σ : Type}

/-- Repeats a choice. -/
def repeated {α : Type} (x : StateM σ α) : Nat → StateM σ (List α)
  | 0 => return []
  | n + 1 => do
    let a ← x
    return a :: (← repeated x n)

/-- Digits drawn at random. -/
def randomDigits (s : Random.Source σ) (count : Nat) : StateM σ (List Word) :=
  repeated (s.between Digit.lowest Digit.highest) count

/-- Two values in turn, as many as asked for. -/
def alternating (a b : Word) : Nat → List Word
  | 0 => []
  | n + 1 => a :: alternating b a n

/-- The digits at the edges. -/
def edgeDigits (count : Nat) : List (List Word) :=
  [alternating Digit.lowest Digit.lowest count, alternating Digit.highest Digit.highest count,
    alternating Digit.lowest Digit.highest count, alternating Digit.highest Digit.lowest count]

end InputSolver.Generate
