/-
  InputSolver — running programs.

  * `Machine.step` carries out an instruction, reading from a list of digits;
  * `Program.run` carries out a program from registers that are all zero.
-/
import InputSolver.Program.Basic

namespace InputSolver

namespace Machine

/-- All registers zero, no input read. -/
def zero : Machine Word := ⟨⟨0, 0, 0, 0⟩, 0⟩

/-- The value of an operand. -/
def operandValue (m : Machine Word) : Operand → Word
  | .register r => m.registers.get r
  | .immediate value => value

/-- Carries out an instruction. -/
def step (digits : List Word) (m : Machine Word) : Instruction → Except EvalError (Machine Word)
  | .inp rd =>
    match digits[m.inputsRead]? with
    | some digit => .ok ⟨m.registers.set rd digit, m.inputsRead + 1⟩
    | none => .error (.unboundInput m.inputsRead)
  | .apply op rd rm => do
    let value ← op.apply (m.registers.get rd) (m.operandValue rm)
    return { m with registers := m.registers.set rd value }

/-- The registers with their values. -/
def text (m : Machine Word) : String :=
  String.intercalate " " (m.registers.toList.map fun (r, v) => r.text ++ "=" ++ Word.text v)

end Machine

namespace Program

/-- The machine after a program, or why the program fails. -/
def run (p : Program) (digits : List Word) : Except EvalError (Machine Word) :=
  p.foldlM (Machine.step digits) .zero

/-- The machines after each instruction, up to an error if there is one. -/
def trace (digits : List Word) (m : Machine Word) : Program → List (Except EvalError (Machine Word))
  | [] => []
  | i :: is =>
    match m.step digits i with
    | .error e => [.error e]
    | .ok m => .ok m :: trace digits m is

end Program

end InputSolver
