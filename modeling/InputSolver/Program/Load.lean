/-
  InputSolver — loading programs.

  Loading carries out a program on expressions: an input is a node for its
  position, and an operation is brought into normal form at once, so that
  register contents stay small.

  * `Machine.load` carries out an instruction, `Program.load` a program from
    registers that all hold the literal 0.
-/
import InputSolver.Normal.Graph
import InputSolver.Program.Basic

namespace InputSolver

namespace Machine

/-- The expression of an operand. -/
def operandExpr (m : Machine Expr) : Operand → GraphM Expr
  | .register r => return m.registers.get r
  | .immediate value => GraphM.build (Build.literal value)

/-- Carries out an instruction on expressions. -/
def load (m : Machine Expr) : Instruction → GraphM (Machine Expr)
  | .inp rd => do
    let input ← GraphM.build (Build.input m.inputsRead)
    return ⟨m.registers.set rd input, m.inputsRead + 1⟩
  | .apply op rd rm => do
    let right ← m.operandExpr rm
    let e ← GraphM.build (Build.binary op (m.registers.get rd) right)
    let n ← GraphM.normalize e
    return { m with registers := m.registers.set rd n }

/-- Four nodes of the literal 0, no input read. -/
def zeroLiterals : GraphM (Machine Expr) := GraphM.build do
  let w ← Build.literal 0
  let x ← Build.literal 0
  let y ← Build.literal 0
  let z ← Build.literal 0
  return ⟨⟨w, x, y, z⟩, 0⟩

end Machine

namespace Program

/-- The register contents after a program, as expressions in its inputs. -/
def load (p : Program) : GraphM (Machine Expr) := do
  p.foldlM Machine.load (← Machine.zeroLiterals)

end Program

end InputSolver
