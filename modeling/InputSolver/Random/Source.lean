/-
  InputSolver — random choices.

  A `Source` makes the choices that generated programs need; `Source.Fair`
  says what holds of every choice.  `chaCha` makes them from a stream of
  random words.

  A choice among `n` values scales a draw `v` below a bound to `v * n / bound`.
  Where the part cut off is so high that another draw may carry into it, one
  more is made.
-/
import InputSolver.Double
import InputSolver.Random.ChaCha
import InputSolver.Word

namespace InputSolver.Random

/-- A way of making choices, with a state. -/
structure Source (σ : Type) where
  /-- a place in a list of the given length -/
  index : Nat → StateM σ Nat
  /-- a word between two bounds, both possible -/
  between : Word → Word → StateM σ Word
  /-- yes with the given probability -/
  chance : Double → StateM σ Bool

/-- Whether a probability is certainty. -/
def isCertain (p : Double) : Bool := Word.countBound ≤ p.floorMul Word.countBound

/-- What holds of every choice: it is in range, and certainty is kept. -/
structure Source.Fair {σ : Type} (s : Source σ) : Prop where
  index_lt : ∀ n g, 0 < n → (s.index n g).1 < n
  le_between : ∀ lo hi g, lo ≤ hi → lo ≤ (s.between lo hi g).1
  between_le : ∀ lo hi g, lo ≤ hi → (s.between lo hi g).1 ≤ hi
  chance_certain : ∀ p g, isCertain p = true → (s.chance p g).1 = true

/-! ## Choices from a stream of words -/

/-- The next 32 bits as a number. -/
def draw32 : StateM Generator Nat := fun g => let (x, g) := g.next32; (x.toNat, g)

/-- The next 64 bits as a number. -/
def draw64 : StateM Generator Nat := fun g => let (x, g) := g.next64; (x.toNat, g)

/-- A number below `n`, from draws of numbers below `bound`. -/
def below (draw : StateM Generator Nat) (bound n : Nat) : StateM Generator Nat := do
  let scaled := (← draw) * n
  let result := scaled / bound
  let cut := scaled % bound
  if bound - n < cut then
    let again ← draw
    return if bound ≤ cut + again * n / bound then result + 1 else result
  else return result

/-- The choices from a stream of words.  Places in lists take 32 bits, words
    64.  Certainty takes none; any other probability is compared with 64. -/
def chaCha : Source Generator where
  index n := below draw32 0x100000000 n
  between lo hi := do
    let n ← below draw64 Word.countBound (Word.distance lo hi + 1)
    return lo + Int64.ofNat n
  chance p := do
    if isCertain p then return true
    else return (← draw64) < p.floorMul Word.countBound

end InputSolver.Random
