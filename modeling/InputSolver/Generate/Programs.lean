/-
  InputSolver — random programs.

  A random program has a given number of instructions, a given number of
  which read inputs; the first one does.  It divides by literals other than
  zero only, multiplies by small literals only and is short, so that no
  register leaves the range of words.

  * `ProgramShape` is the length and the number of inputs;
  * `randomProgram` draws a program, `randomPrograms` a list of them.
-/
import InputSolver.Generate.Digits
import InputSolver.Program.Basic

namespace InputSolver.Generate

variable {σ : Type}

/-- The most instructions a random program has. -/
def maxLength : Nat := 24

/-- The divisors in random programs. -/
def divisors : List Word := [2, 3, 5, 7, 26, -3, -7]

/-- How many instructions a random program has, and how many of them read an
    input. -/
structure ProgramShape where
  length : Nat
  inputs : Nat
  inputs_pos : 0 < inputs
  inputs_le : inputs ≤ length
  length_le : length ≤ maxLength

namespace ProgramShape

/-- Sixteen instructions, three of which read an input. -/
def standard : ProgramShape := ⟨16, 3, by decide, by decide, by decide⟩

/-- The number nearest to `n` between two bounds. -/
def clamped (lo hi n : Nat) : Nat := if n < lo then lo else if hi < n then hi else n

theorem le_clamped {lo hi : Nat} (h : lo ≤ hi) (n : Nat) : lo ≤ clamped lo hi n := by
  unfold clamped; split
  · exact Nat.le_refl lo
  · split <;> omega

theorem clamped_le {lo hi : Nat} (h : lo ≤ hi) (n : Nat) : clamped lo hi n ≤ hi := by
  unfold clamped; split
  · exact h
  · split <;> omega

/-- Another length, as near to `n` as allowed; there are no more inputs than
    instructions. -/
def withLength (s : ProgramShape) (n : Nat) : ProgramShape where
  length := clamped 1 maxLength n
  inputs := Nat.min s.inputs (clamped 1 maxLength n)
  inputs_pos := Nat.lt_min.2 ⟨s.inputs_pos, le_clamped (by decide) n⟩
  inputs_le := Nat.min_le_right ..
  length_le := clamped_le (by decide) n

/-- Another number of inputs, as near to `n` as allowed. -/
def withInputs (s : ProgramShape) (n : Nat) : ProgramShape where
  length := s.length
  inputs := clamped 1 s.length n
  inputs_pos := le_clamped (Nat.le_trans s.inputs_pos s.inputs_le) n
  inputs_le := clamped_le (Nat.le_trans s.inputs_pos s.inputs_le) n
  length_le := s.length_le

end ProgramShape

/-! ## Drawing instructions -/

/-- An element of a list, or the given one from an empty list. -/
def element {α : Type} (s : Random.Source σ) (xs : List α) (default : α) : StateM σ α := do
  return xs[← s.index xs.length]?.getD default

def randomRegister (s : Random.Source σ) : StateM σ Register := element s Register.all .w

/-- A literal between two bounds. -/
def randomImmediate (s : Random.Source σ) (lo hi : Word) : StateM σ Operand :=
  return .immediate (← s.between lo hi)

/-- A register with the given probability, else a literal. -/
def randomOperand (s : Random.Source σ) (p : Double) (lo hi : Word) : StateM σ Operand := do
  if ← s.chance p then return .register (← randomRegister s)
  else randomImmediate s lo hi

/-- A literal divisor. -/
def randomDivisor (s : Random.Source σ) : StateM σ Operand :=
  return .immediate (← element s divisors 2)

/-- An instruction that applies an operator.  Of ten, three add, two
    multiply, two divide, one takes a remainder and two test for equality. -/
def randomOperation (s : Random.Source σ) : StateM σ Instruction := do
  let rd ← randomRegister s
  let kind ← s.index 10
  if kind < 3 then return .apply .add rd (← randomOperand s (.nearest 1 2) (-10) 26)
  else if kind < 5 then return .apply .mul rd (← randomImmediate s (-5) 5)
  else if kind < 7 then return .apply .div rd (← randomDivisor s)
  else if kind < 8 then return .apply .mod rd (← randomDivisor s)
  else return .apply .eql rd (← randomOperand s (.nearest 3 5) 0 9)

/-- Whether the next of `slots` instructions reads one of the `inputs` that
    are left.  The first instruction of a program does. -/
def readsNext (s : Random.Source σ) (first : Bool) (slots inputs : Nat) : StateM σ Bool :=
  if inputs = 0 then return false
  else if first then return true
  else s.chance (.nearest inputs slots)

/-- Draws the instructions that are left. -/
def randomInstructions (s : Random.Source σ) (first : Bool) :
    (slots inputs : Nat) → StateM σ Program
  | 0, _ => return []
  | slots + 1, inputs => do
    if ← readsNext s first (slots + 1) inputs then
      let rd ← randomRegister s
      return .inp rd :: (← randomInstructions s false slots (inputs - 1))
    else
      let i ← randomOperation s
      return i :: (← randomInstructions s false slots inputs)

/-- Draws a program. -/
def randomProgram (s : Random.Source σ) (shape : ProgramShape) : StateM σ Program :=
  randomInstructions s true shape.length shape.inputs

/-- Draws programs from the stream of a seed. -/
def randomPrograms (shape : ProgramShape) (seed : UInt64) (count : Nat) : List Program :=
  (repeated (randomProgram Random.chaCha shape) count (.ofSeed seed)).1

end InputSolver.Generate
