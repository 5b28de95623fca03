/-
  InputSolver — machine words.

  Registers, literals and digits are signed 64-bit words.  The operators `+`,
  `-`, `*`, `/` and `%` on words wrap around; the operations here are the
  other ways of fitting an integer into a word:

  * `Word.clamp` takes the nearest word, and `satAdd`, `satMul`, `satAbs` are
    the arithmetic operations followed by it;
  * `Word.exact` demands that the integer is a word, and `exactSub`,
    `exactNeg`, `exactRem` are the operations followed by it;
  * `Word.distance` counts the steps of 1 from a word up to a higher one, a
    number below `2^64` that need not be a word itself.

  Main statements: `toInt_clamp`, `toInt_ofInt` and `distance_eq` give the
  value of each in the integers.
-/
import InputSolver.Fault

namespace InputSolver

/-- A signed 64-bit word. -/
abbrev Word := Int64

namespace Word

/-- The integers that are words. -/
def InRange (i : Int) : Prop := -0x8000000000000000 ≤ i ∧ i < 0x8000000000000000

instance (i : Int) : Decidable (InRange i) := inferInstanceAs (Decidable (_ ∧ _))

/-- The word nearest to an integer. -/
def clamp (i : Int) : Word :=
  if i < -0x8000000000000000 then Int64.minValue
  else if 0x8000000000000000 ≤ i then Int64.maxValue
  else Int64.ofInt i

/-- The word equal to an integer, or a fault if there is none. -/
def exact (i : Int) : Except Fault Word :=
  if InRange i then .ok (Int64.ofInt i) else .error .overflow

/-! ## Arithmetic that saturates -/

/-- The sum, or the end of the word range on its side. -/
def satAdd (a b : Word) : Word := clamp (a.toInt + b.toInt)

/-- The product, or the end of the word range on its side. -/
def satMul (a b : Word) : Word := clamp (a.toInt * b.toInt)

/-- The absolute value; the lowest word goes to the highest. -/
def satAbs (a : Word) : Word := clamp a.toInt.natAbs

/-- The greatest common divisor of the absolute values, or the highest word
    if that divisor is `2^63`. -/
def gcd (a b : Word) : Word := clamp (Int.gcd a.toInt b.toInt)

/-! ## Arithmetic that must be exact -/

/-- The difference of two words, where it is a word. -/
def exactSub (a b : Word) : Except Fault Word := exact (a.toInt - b.toInt)

/-- The opposite of a word, where it is a word. -/
def exactNeg (a : Word) : Except Fault Word := exact (-a.toInt)

/-- The remainder of a division whose quotient is a word. -/
def exactRem (a b : Word) : Except Fault Word :=
  if a = Int64.minValue ∧ b = -1 then .error .overflow else .ok (a % b)

/-- Whether `a` is a multiple of the non-zero word `b` and the quotient is a
    word. -/
def divides (b a : Word) : Bool :=
  b != 0 && !(a == Int64.minValue && b == -1) && a % b == 0

/-! ## Differences -/

/-- Counters of 64 bits stay below this. -/
def countBound : Nat := 0x10000000000000000

/-- The number of steps of 1 from `a` up to `b`, for `a ≤ b`. -/
def distance (a b : Word) : Nat := (b - a).toUInt64.toNat

/-- Decimal text, with a sign if negative. -/
def text (a : Word) : String := toString a.toInt

/-! ## Values in the integers -/

theorem inRange_toInt (a : Word) : InRange a.toInt := ⟨a.le_toInt, a.toInt_lt⟩

theorem toInt_ofInt {i : Int} (h : InRange i) : (Int64.ofInt i).toInt = i :=
  Int64.toInt_ofInt_of_le h.1 h.2

theorem toInt_clamp (i : Int) :
    (clamp i).toInt =
      if i < -0x8000000000000000 then -0x8000000000000000
      else if 0x8000000000000000 ≤ i then 0x7fffffffffffffff
      else i := by
  unfold clamp
  split
  · simp
  · split
    · exact Int64.toInt_maxValue
    · exact toInt_ofInt ⟨by omega, by omega⟩

theorem clamp_of_inRange {i : Int} (h : InRange i) : (clamp i).toInt = i := by
  obtain ⟨h₁, h₂⟩ := h
  rw [toInt_clamp, if_neg (by omega), if_neg (by omega)]

theorem exact_eq_ok_iff {i : Int} {a : Word} : exact i = .ok a ↔ a.toInt = i := by
  unfold exact
  split
  · rename_i h
    constructor
    · rintro ⟨⟩; exact toInt_ofInt h
    · rintro rfl; simp
  · rename_i h
    constructor
    · rintro ⟨⟩
    · rintro rfl; exact absurd (inRange_toInt a) h

theorem distance_eq {a b : Word} (h : a ≤ b) : (distance a b : Int) = b.toInt - a.toInt := by
  have hle := Int64.le_iff_toInt_le.1 h
  have ha := a.le_toInt
  have hb := b.toInt_lt
  have hn : (b - a).toUInt64.toNat < 2 ^ 64 := (b - a).toUInt64.toNat_lt
  have hm : ((b - a).toUInt64.toNat : Int).bmod (2 ^ 64) = (b.toInt - a.toInt).bmod (2 ^ 64) := by
    rw [← Int64.toInt_sub, ← Int64.toInt_toBitVec, BitVec.toInt_eq_toNat_bmod]
    rfl
  have hmod := congrArg (· % ((2 ^ 64 : Nat) : Int)) hm
  simp only [Int.bmod_emod] at hmod
  unfold distance
  omega

/-- Going up from `a` by no more than the distance to `b` does not wrap. -/
theorem toInt_add_ofNat {a b : Word} (h : a ≤ b) {n : Nat} (hn : n ≤ distance a b) :
    (a + Int64.ofNat n).toInt = a.toInt + n := by
  have hd := distance_eq h
  have ha := a.le_toInt
  have hb := b.toInt_lt
  rw [Int64.toInt_add, Int64.toInt_ofNat', Int64.size, Int.add_bmod_bmod]
  exact Int.bmod_eq_of_le (by omega) (by omega)

theorem toInt_toNat {a : Word} (h : 0 ≤ a) : (a.toNatClampNeg : Int) = a.toInt :=
  Int.toNat_of_nonneg (Int64.le_iff_toInt_le.1 h)

end Word

end InputSolver
