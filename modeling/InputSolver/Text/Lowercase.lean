/-
  InputSolver — lower case.

  Names are compared in lower case with names in ASCII letters.  Besides the
  ASCII letters themselves, the only character whose lower-case form is in
  ASCII is the Kelvin sign; all others may stay as they are.
-/
namespace InputSolver.Text

/-- The lower-case form of a character, where that is in ASCII. -/
def lowercaseChar (c : Char) : Char :=
  if 'A' ≤ c ∧ c ≤ 'Z' then Char.ofNat (c.toNat + 32)
  else if c.val = 0x212a then 'k'
  else c

/-- The text with all characters in lower case, as far as that is in ASCII. -/
def lowercase (s : String) : String := String.ofList (s.toList.map lowercaseChar)

end InputSolver.Text
