/-
  InputSolver — blanks, fields and lines.

  White space is the Unicode property of that name.  Text is cut into lines
  at line feeds and a line into fields at runs of white space.  Wherever a line
  feed stands, it ends a line (`lines_append`).
-/
namespace InputSolver.Text

/-- The characters with the Unicode property `White_Space`. -/
def isBlank (c : Char) : Bool :=
  let n := c.val
  (0x9 ≤ n && n ≤ 0xd) || n == 0x20 || n == 0x85 || n == 0xa0 || n == 0x1680 ||
    (0x2000 ≤ n && n ≤ 0x200a) || n == 0x2028 || n == 0x2029 || n == 0x202f || n == 0x205f ||
    n == 0x3000

/-- The text without white space at its ends. -/
def trim (cs : List Char) : List Char :=
  ((cs.dropWhile isBlank).reverse.dropWhile isBlank).reverse

/-- Puts a character in front of the first piece. -/
def prepend (c : Char) : List (List Char) → List (List Char)
  | [] => [[c]]
  | p :: ps => (c :: p) :: ps

/-- The pieces between line feeds, of which the last need not have one. -/
def lines : List Char → List (List Char)
  | [] => []
  | c :: cs => if c = '\n' then [] :: lines cs else prepend c (lines cs)

/-- The pieces between runs of white space: one ends where white space follows, or nothing. -/
def fields : List Char → List (List Char)
  | [] => []
  | c :: cs =>
    if isBlank c then fields cs
    else if cs.head?.all isBlank then [c] :: fields cs
    else prepend c (fields cs)

/-! ## Laws -/

theorem lines_append {l : List Char} (h : '\n' ∉ l) (rest : List Char) :
    lines (l ++ '\n' :: rest) = l :: lines rest := by
  induction l with
  | nil => simp [lines]
  | cons c cs ih =>
    simp only [List.mem_cons, not_or] at h
    simp only [List.cons_append, lines, if_neg (Ne.symm h.1), ih h.2, prepend]

end InputSolver.Text
