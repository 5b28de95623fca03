/-
  InputSolver — decimal numbers.

  A number is written as an optional sign and one or more of the digits `0`
  to `9`.  Reading goes from left to right and stops at the first thing
  wrong: a character that is no digit, or a value out of range.

  * `Word.ofText` reads a word, `natOfText` a natural number below a bound.
-/
import InputSolver.Word

namespace InputSolver

/-- Why a text is not a number. -/
inductive NumberError where
  | empty
  | invalidDigit
  | tooLarge
  | tooSmall
  deriving DecidableEq

namespace NumberError

def message : NumberError → String
  | empty => "cannot parse integer from empty string"
  | invalidDigit => "invalid digit found in string"
  | tooLarge => "number too large to fit in target type"
  | tooSmall => "number too small to fit in target type"

end NumberError

namespace Text

/-- The value of a decimal digit. -/
def digit? (c : Char) : Option Nat :=
  if '0' ≤ c ∧ c ≤ '9' then some (c.toNat - '0'.toNat) else none

/-- Reads digits after those of value `n`, which may go up to `limit`. -/
def digitsFrom (limit : Nat) (tooFar : NumberError) (n : Nat) :
    List Char → Except NumberError Nat
  | [] => .ok n
  | c :: cs =>
    match digit? c with
    | none => .error .invalidDigit
    | some d =>
      if limit < n * 10 + d then .error tooFar else digitsFrom limit tooFar (n * 10 + d) cs

/-- Reads one or more digits. -/
def digits (limit : Nat) (tooFar : NumberError) : List Char → Except NumberError Nat
  | [] => .error .invalidDigit
  | cs => digitsFrom limit tooFar 0 cs

/-- Reads a natural number up to `limit`; it may have a plus sign. -/
def natOfText (limit : Nat) : List Char → Except NumberError Nat
  | [] => .error .empty
  | '+' :: cs => digits limit .tooLarge cs
  | cs => digits limit .tooLarge cs

end Text

/-- Reads a word; it may have a sign. -/
def Word.ofText : List Char → Except NumberError Word
  | [] => .error .empty
  | '-' :: cs => (Text.digits 0x8000000000000000 .tooSmall cs).map fun n => Int64.ofInt (-n)
  | '+' :: cs => (Text.digits 0x7fffffffffffffff .tooLarge cs).map Int64.ofNat
  | cs => (Text.digits 0x7fffffffffffffff .tooLarge cs).map Int64.ofNat

end InputSolver
