/-
  InputSolver — programs that match digits in pairs.

  A program of this kind is a list of blocks.  Each block reads a digit and
  works on `z` as a stack in base 26: a push block puts its digit plus an
  offset on the stack, and a pop block takes the top off and compares it,
  plus a check value, with its own digit.  A block whose comparison fails
  pushes.

  * `Block.program` are the instructions of a block, `blocksProgram` those of
    a list of blocks;
  * `randomBlocks` draws a balanced list.
-/
import InputSolver.Generate.Digits
import InputSolver.Program.Basic

namespace InputSolver.Generate

variable {σ : Type}

/-- What a block does to the stack. -/
inductive StackAction where
  | push
  | pop
  deriving DecidableEq

/-- One block. -/
structure Block where
  action : StackAction
  /-- added to the top of the stack before the comparison with the digit -/
  check : Word
  /-- added to the digit before it is pushed -/
  offset : Word
  deriving DecidableEq

namespace Block

/-- What the stack is divided by: a pop takes off one digit in base 26. -/
def divisor (b : Block) : Word :=
  match b.action with
  | .push => 1
  | .pop => 26

/-- The instructions of a block. -/
def program (b : Block) : Program :=
  [.inp .w,
    .apply .mul .x (.immediate 0),
    .apply .add .x (.register .z),
    .apply .mod .x (.immediate 26),
    .apply .div .z (.immediate b.divisor),
    .apply .add .x (.immediate b.check),
    .apply .eql .x (.register .w),
    .apply .eql .x (.immediate 0),
    .apply .mul .y (.immediate 0),
    .apply .add .y (.immediate 25),
    .apply .mul .y (.register .x),
    .apply .add .y (.immediate 1),
    .apply .mul .z (.register .y),
    .apply .mul .y (.immediate 0),
    .apply .add .y (.register .w),
    .apply .add .y (.immediate b.offset),
    .apply .mul .y (.register .x),
    .apply .add .z (.register .y)]

end Block

/-- The instructions of some blocks. -/
def blocksProgram (blocks : List Block) : Program := blocks.flatMap Block.program

/-! ## Drawing blocks -/

def randomPush (s : Random.Source σ) : StateM σ Block := do
  let check ← s.between 10 15
  let offset ← s.between 1 16
  return ⟨.push, check, offset⟩

def randomPop (s : Random.Source σ) : StateM σ Block := do
  let check ← s.between (-16) (-1)
  let offset ← s.between 1 16
  return ⟨.pop, check, offset⟩

/-- Draws the blocks for some pushes that are left and a stack of some
    depth.  Where both a push and a pop are possible, each is as likely. -/
def randomBlocksFrom (s : Random.Source σ) : (pushes depth : Nat) → StateM σ (List Block)
  | 0, 0 => return []
  | pushes + 1, 0 => do
    let b ← randomPush s
    return b :: (← randomBlocksFrom s pushes 1)
  | 0, depth + 1 => do
    let b ← randomPop s
    return b :: (← randomBlocksFrom s 0 depth)
  | pushes + 1, depth + 1 => do
    if ← s.chance (.nearest 1 2) then
      let b ← randomPush s
      return b :: (← randomBlocksFrom s pushes (depth + 2))
    else
      let b ← randomPop s
      return b :: (← randomBlocksFrom s (pushes + 1) depth)
termination_by pushes depth => 2 * pushes + depth

/-- Draws a list of blocks with some pairs of a push and a pop. -/
def randomBlocks (s : Random.Source σ) (pairs : Nat) : StateM σ (List Block) :=
  randomBlocksFrom s pairs 0

end InputSolver.Generate
