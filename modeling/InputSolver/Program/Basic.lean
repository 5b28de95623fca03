/-
  InputSolver — programs.

  The machine has four registers.  A program is a list of instructions: `inp`
  reads the next input into a register; the others apply an operator to a
  register and an operand and put the result into that register.

  * `Register`, `Operand`, `Instruction`, `Program` and their text;
  * `Registers` and `Machine`: what the registers hold, and how many inputs
    were read.
-/
import InputSolver.Operator

namespace InputSolver

/-! ## Registers -/

inductive Register where
  | w | x | y | z
  deriving DecidableEq

namespace Register

/-- The registers in order. -/
def all : List Register := [w, x, y, z]

/-- The place in the order. -/
def index : Register → Nat
  | w => 0
  | x => 1
  | y => 2
  | z => 3

/-- The register at a place in the order. -/
def ofIndex? (index : Nat) : Option Register := all[index]?

def text : Register → String
  | w => "w"
  | x => "x"
  | y => "y"
  | z => "z"

/-- The register of a name. -/
def ofText? : String → Option Register
  | "w" => some w
  | "x" => some x
  | "y" => some y
  | "z" => some z
  | _ => none

theorem ofText?_text (r : Register) : ofText? r.text = some r := by
  cases r <;> rfl

end Register

/-- One value for each register. -/
@[ext]
structure Registers (α : Type) where
  w : α
  x : α
  y : α
  z : α
  deriving DecidableEq

namespace Registers

variable {α : Type}

def get (rs : Registers α) : Register → α
  | .w => rs.w
  | .x => rs.x
  | .y => rs.y
  | .z => rs.z

def set (rs : Registers α) (r : Register) (a : α) : Registers α :=
  match r with
  | .w => { rs with w := a }
  | .x => { rs with x := a }
  | .y => { rs with y := a }
  | .z => { rs with z := a }

/-- The registers in order, each with its value. -/
def toList (rs : Registers α) : List (Register × α) := Register.all.map fun r => (r, rs.get r)

theorem get_set (rs : Registers α) (r s : Register) (a : α) :
    (rs.set r a).get s = if s = r then a else rs.get s := by
  cases r <;> cases s <;> rfl

end Registers

/-- What the registers hold, and how many inputs were read. -/
structure Machine (α : Type) where
  registers : Registers α
  inputsRead : Nat
  deriving DecidableEq

/-! ## Instructions -/

/-- The second operand of an operator: a register or a literal. -/
inductive Operand where
  | register (r : Register)
  | immediate (value : Word)
  deriving DecidableEq

namespace Operand

def text : Operand → String
  | register r => r.text
  | immediate value => Word.text value

end Operand

inductive Instruction where
  /-- reads the next input into a register -/
  | inp (rd : Register)
  /-- applies an operator to a register and an operand, into the register -/
  | apply (op : Operator) (rd : Register) (rm : Operand)
  deriving DecidableEq

/-- The name of an operator in program text. -/
def Operator.mnemonic : Operator → String
  | add => "add"
  | mul => "mul"
  | div => "div"
  | mod => "mod"
  | eql => "eql"

/-- The operator of a name in program text. -/
def Operator.ofMnemonic? : String → Option Operator
  | "add" => some add
  | "mul" => some mul
  | "div" => some div
  | "mod" => some mod
  | "eql" => some eql
  | _ => none

theorem Operator.ofMnemonic?_mnemonic (op : Operator) :
    Operator.ofMnemonic? op.mnemonic = some op := by
  cases op <;> rfl

namespace Instruction

def mnemonic : Instruction → String
  | inp _ => "inp"
  | apply op _ _ => op.mnemonic

/-- The register an instruction writes. -/
def destination : Instruction → Register
  | inp rd | apply _ rd _ => rd

def operand? : Instruction → Option Operand
  | inp _ => none
  | apply _ _ rm => some rm

def op? : Instruction → Option Operator
  | inp _ => none
  | apply op _ _ => some op

/-- The registers an instruction reads, the left operand first. -/
def sources : Instruction → List Register
  | inp _ => []
  | apply _ rd (.register r) => [rd, r]
  | apply _ rd (.immediate _) => [rd]

def readsInput : Instruction → Bool
  | inp _ => true
  | apply .. => false

def text : Instruction → String
  | inp rd => "inp " ++ rd.text
  | apply op rd rm => op.mnemonic ++ " " ++ rd.text ++ " " ++ rm.text

end Instruction

abbrev Program := List Instruction

namespace Program

/-- The number of inputs a program reads. -/
def inputCount (p : Program) : Nat := p.countP (·.readsInput)

/-- The instructions, one on a line. -/
def text (p : Program) : String := String.intercalate "\n" (p.map (·.text))

end Program

end InputSolver
