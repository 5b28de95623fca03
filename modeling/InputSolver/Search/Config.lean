/-
  InputSolver — what to search for.

  A search looks for the inputs, digits all, that make an expression equal to
  a target: the largest such inputs or the smallest, read as one number.

  * `Algorithm` and `Direction`, with their names;
  * `SearchConfig`: the target, the direction, and the register and the
    algorithm to use.
-/
import InputSolver.Digit
import InputSolver.Program.Basic
import InputSolver.Text.Lowercase

namespace InputSolver

/-- How to search. -/
inductive Algorithm where
  /-- digit by digit, leaving out what cannot reach the target -/
  | backtracking
  /-- all assignments one after the other -/
  | exhaustive
  deriving DecidableEq

namespace Algorithm

def text : Algorithm → String
  | backtracking => "backtracking"
  | exhaustive => "exhaustive"

/-- The algorithm of a name, in any case. -/
def ofText? (s : String) : Option Algorithm :=
  let name := Text.lowercase s
  if name ∈ ["backtracking", "backtrack", "bt"] then some backtracking
  else if name ∈ ["exhaustive", "brute-force", "brute"] then some exhaustive
  else none

/-- The answer to a name that no algorithm has. -/
def unknownMessage (s : String) : String :=
  "Unknown algorithm: '" ++ s ++ "'. Valid options: backtracking, exhaustive"

end Algorithm

/-- Which of several solutions to prefer. -/
inductive Direction where
  | largest
  | smallest
  deriving DecidableEq

namespace Direction

def text : Direction → String
  | largest => "largest"
  | smallest => "smallest"

/-- The direction of a name, in any case. -/
def ofText? (s : String) : Option Direction :=
  let name := Text.lowercase s
  if name ∈ ["largest", "max"] then some largest
  else if name ∈ ["smallest", "min"] then some smallest
  else none

/-- The answer to a name that no direction has. -/
def unknownMessage (s : String) : String :=
  "Unknown direction: '" ++ s ++ "'. Valid options: largest, smallest"

/-- The digits of an input in the order in which they are tried. -/
def digits : Direction → List Word
  | largest => Digit.ascending.reverse
  | smallest => Digit.ascending

/-- The digit for an input that may be any. -/
def preferredDigit : Direction → Word
  | largest => Digit.highest
  | smallest => Digit.lowest

end Direction

/-- What a search looks for, and how. -/
structure SearchConfig where
  target : Word
  direction : Direction
  register : Register
  algorithm : Algorithm

/-- The largest inputs that leave zero in `z`. -/
def SearchConfig.standard : SearchConfig := ⟨0, .largest, .z, .backtracking⟩

end InputSolver
