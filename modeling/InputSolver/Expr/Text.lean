/-
  InputSolver — expressions as text.

  * `text` is the one-line form: every operation in parentheses, inputs as
    `i0`, `i1`, …, an equality test as a choice between 1 and 0, and the sum
    with a negative literal as a difference;
  * `pretty` puts the operands of larger operations on lines of their own.
-/
import InputSolver.Expr.Basic

namespace InputSolver.Expr

/-- The one-line form. -/
def text : Expr → String
  | literal _ value => Word.text value
  | input _ index => "i" ++ toString index
  | binary _ _ .add l (literal _ value) =>
    if value < 0 then "(" ++ l.text ++ " - " ++ toString value.toInt.natAbs ++ ")"
    else "(" ++ l.text ++ " + " ++ Word.text value ++ ")"
  | binary _ _ .eql l r => "(" ++ l.text ++ " == " ++ r.text ++ " ? 1 : 0)"
  | binary _ _ op l r => "(" ++ l.text ++ " " ++ op.symbol ++ " " ++ r.text ++ ")"

/-- The one-line form as a tagged value. -/
def taggedText (e : Expr) : String := "Expr(" ++ e.text ++ ")"

/-! ## The form on several lines -/

/-- Whether an operand of an equality test leaves the test on one line. -/
def isShortOperand : Expr → Bool
  | binary _ _ .eql _ _ => false
  | binary _ _ _ l r => l.isLeaf && r.isLeaf
  | _ => true

/-- Whether an expression is written on one line. -/
def isShort : Expr → Bool
  | binary _ _ .eql l r => l.isShortOperand && r.isShortOperand
  | binary _ _ _ l r => l.isLeaf && r.isLeaf
  | _ => true

/-- Several copies of a piece of text. -/
def indentation (unit : String) (level : Nat) : String := String.join (List.replicate level unit)

/-- The lines of an expression at an indentation level. -/
def prettyLines (unit : String) (level : Nat) : Expr → List String
  | e@(binary _ _ op l r) =>
    if e.isShort then [indentation unit level ++ e.text]
    else
      let outer := indentation unit level
      let inner := indentation unit (level + 1)
      [outer ++ "("] ++ l.prettyLines unit (level + 1) ++ [inner ++ op.symbol] ++
        r.prettyLines unit (level + 1) ++
        (if op = .eql then [inner ++ "? 1 : 0"] else []) ++ [outer ++ ")"]
  | e => [indentation unit level ++ e.text]

/-- The form on several lines, indented by copies of `unit`. -/
def pretty (e : Expr) (unit : String) : String :=
  String.intercalate "\n" (e.prettyLines unit 0)

end InputSolver.Expr
