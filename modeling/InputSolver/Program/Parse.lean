/-
  InputSolver — reading programs.

  A line holds one instruction: a mnemonic and its operands, with white space
  between them.  A comment starts with `#` or `;`; lines without an
  instruction are skipped.

  * `Instruction.ofFields`, `Instruction.ofLine` and `Program.ofText` read
    the fields of an instruction, a line, and a whole program;
  * `FieldError` and `ProgramError` say what is wrong, and where.
-/
import InputSolver.Program.Basic
import InputSolver.Text.Blank
import InputSolver.Text.Number

namespace InputSolver

/-! ## Errors -/

/-- What is wrong with an instruction. -/
inductive FieldError where
  | unknownOperator (mnemonic : String)
  | unknownRegister (name : String)
  | invalidOperand (operand : String) (reason : NumberError)
  | operandCount (mnemonic : String) (expected : Nat) (found : Nat)
  /-- a quotient or remainder by the literal 0 -/
  | zeroDivisor (op : Operator)
  deriving DecidableEq

namespace FieldError

def message : FieldError → String
  | unknownOperator mnemonic => "unknown instruction: " ++ mnemonic
  | unknownRegister name => "unknown register: " ++ name
  | invalidOperand operand reason => "invalid operand '" ++ operand ++ "': " ++ reason.message
  | operandCount mnemonic expected found =>
    mnemonic ++ " requires " ++ toString expected ++ " operand" ++
      (if expected = 1 then "" else "s") ++ ", got " ++ toString found
  | zeroDivisor op => op.mnemonic ++ " by literal zero"

/-- Whether an operator or a register has an unknown name. -/
def isMalformed : FieldError → Bool
  | unknownOperator _ | unknownRegister _ => true
  | _ => false

end FieldError

/-- Why there is no program. -/
inductive ProgramError where
  /-- an instruction is wrong; lines count from 1 -/
  | line (number : Nat) (content : String) (cause : FieldError)
  /-- there is no instruction -/
  | noInstructions
  /-- the file at a path cannot be read -/
  | unreadable (path : String) (reason : String)
  deriving DecidableEq

namespace ProgramError

/-- The line of an error, 0 if it is none of a line. -/
def lineNumber : ProgramError → Nat
  | line number _ _ => number
  | _ => 0

/-- The line itself, without white space at its ends. -/
def content : ProgramError → String
  | line _ content _ => content
  | _ => ""

def message : ProgramError → String
  | line _ _ cause => cause.message
  | noInstructions => "no instructions found"
  | unreadable path reason => "failed to read " ++ path ++ ": " ++ reason

def isMalformed : ProgramError → Bool
  | line _ _ cause => cause.isMalformed
  | _ => false

/-- The message with its line, and the line's content below it. -/
def text (e : ProgramError) : String :=
  "line " ++ toString e.lineNumber ++ ": " ++ e.message ++
    (if e.content = "" then "" else "\n  | " ++ e.content)

end ProgramError

/-! ## Fields -/

/-- Reads the name of a register. -/
def Register.ofText (s : String) : Except FieldError Register :=
  match Register.ofText? s with
  | some r => .ok r
  | none => .error (.unknownRegister s)

/-- Reads an operand: a register, or else a literal. -/
def Operand.ofText (s : String) : Except FieldError Operand :=
  match Register.ofText? s with
  | some r => .ok (.register r)
  | none =>
    match Word.ofText s.toList with
    | .ok value => .ok (.immediate value)
    | .error reason => .error (.invalidOperand s reason)

/-- Whether an operator refuses an operand: a literal zero as divisor. -/
def Operator.refuses (op : Operator) (rm : Operand) : Bool :=
  (op = .div ∨ op = .mod) ∧ rm = .immediate 0

namespace Instruction

/-- Reads the operands of `inp`. -/
def inpOfFields : List String → Except FieldError Instruction
  | [rd] => return inp (← Register.ofText rd)
  | operands => .error (.operandCount "inp" 1 operands.length)

/-- Reads the operands of an operator. -/
def applyOfFields (op : Operator) : List String → Except FieldError Instruction
  | [rd, rm] => do
    let rd ← Register.ofText rd
    let rm ← Operand.ofText rm
    if op.refuses rm then .error (.zeroDivisor op) else return apply op rd rm
  | operands => .error (.operandCount op.mnemonic 2 operands.length)

/-- Reads an instruction from its mnemonic and its operands. -/
def ofFields (mnemonic : String) (operands : List String) : Except FieldError Instruction :=
  if mnemonic = "inp" then inpOfFields operands
  else
    match Operator.ofMnemonic? mnemonic with
    | some op => applyOfFields op operands
    | none => .error (.unknownOperator mnemonic)

/-! ## Lines -/

/-- The part of a line before a comment. -/
def code (line : List Char) : List Char := line.takeWhile fun c => c ≠ '#' ∧ c ≠ ';'

/-- Reads the instruction of a line, if it has one. -/
def ofLine (line : List Char) : Except FieldError (Option Instruction) :=
  match (Text.fields (code line)).map String.ofList with
  | [] => .ok none
  | mnemonic :: operands => some <$> ofFields mnemonic operands

end Instruction

/-! ## Programs -/

namespace Program

/-- Reads lines, counted from `number` on. -/
def ofLines (number : Nat) : List (List Char) → Except ProgramError Program
  | [] => .ok []
  | line :: rest =>
    match Instruction.ofLine line with
    | .error cause => .error (.line number (String.ofList (Text.trim line)) cause)
    | .ok instruction? => (instruction?.toList ++ ·) <$> ofLines (number + 1) rest

/-- Reads a program, which has at least one instruction. -/
def ofText (text : String) : Except ProgramError Program := do
  let program ← ofLines 1 (Text.lines text.toList)
  if program.isEmpty then .error .noInstructions else return program

end Program

end InputSolver
