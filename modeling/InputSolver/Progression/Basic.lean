/-
  InputSolver — arithmetic progressions.

  A `Progression` is the set `min, min + step, …, max` of words.  The type
  keeps it canonical: the bounds are in order, the step is positive, `max` is
  reached, and a single value has step 1.

  * `new` builds one from any three words, `single` from one;
  * `size`, `includes`, `value` and `take` count, test and list its values;
  * `contains` and `multiplesOf` compare it with another one and with a
    divisor;
  * `firstFrom`, `lastTo` and `splitSign` cut it at a bound.
-/
import InputSolver.Word

namespace InputSolver

/-- The words `min, min + step, …, max`. -/
@[ext]
structure Progression where
  min : Word
  max : Word
  step : Word
  min_le_max : min ≤ max
  step_pos : 0 < step
  aligned : Word.distance min max % step.toNatClampNeg = 0
  step_of_single : min = max → step = 1
  deriving DecidableEq

namespace Progression

/-! ## Building -/

/-- The progression of one value. -/
def single (v : Word) : Progression where
  min := v
  max := v
  step := 1
  min_le_max := Int64.le_refl v
  step_pos := by decide
  aligned := by
    have h : (1 : Word).toNatClampNeg = 1 := by decide
    rw [h, Nat.mod_one]
  step_of_single _ := rfl

/-- The last word at or below `hi` that is reached from `lo` in steps of `d`. -/
def lastReached (lo hi d : Word) : Word :=
  lo + Int64.ofNat (Word.distance lo hi - Word.distance lo hi % d.toNatClampNeg)

theorem toInt_lastReached {lo hi : Word} (h : lo ≤ hi) (d : Word) :
    (lastReached lo hi d).toInt =
      lo.toInt + (Word.distance lo hi - Word.distance lo hi % d.toNatClampNeg : Nat) :=
  Word.toInt_add_ofNat h (Nat.sub_le ..)

theorem le_lastReached {lo hi : Word} (h : lo ≤ hi) (d : Word) : lo ≤ lastReached lo hi d := by
  rw [Int64.le_iff_toInt_le, toInt_lastReached h]
  omega

theorem distance_lastReached {lo hi : Word} (h : lo ≤ hi) (d : Word) :
    Word.distance lo (lastReached lo hi d) =
      Word.distance lo hi - Word.distance lo hi % d.toNatClampNeg := by
  have := Word.distance_eq (le_lastReached h d)
  rw [toInt_lastReached h] at this
  omega

/-- The progression from `lo` in steps of `d`, as far as `hi` allows. -/
def ofOrdered (lo hi d : Word) (h : lo ≤ hi) (hd : 0 < d) : Progression :=
  if heq : lo = lastReached lo hi d then single lo
  else
    { min := lo
      max := lastReached lo hi d
      step := d
      min_le_max := le_lastReached h d
      step_pos := hd
      aligned := by
        rw [distance_lastReached h]
        exact Nat.sub_mod_eq_zero_of_mod_eq (Nat.mod_mod ..).symm
      step_of_single := fun h' => absurd h' heq }

/-- The progression from the lower bound up to the higher one as far as the
    step allows.  The bounds may come in either order; a step below 1 counts
    as 1. -/
def new (a b step : Word) : Progression :=
  if hd : 0 < step then
    if h : a ≤ b then ofOrdered a b step h hd
    else ofOrdered b a step (Int64.le_of_lt (Int64.not_le.1 h)) hd
  else
    if h : a ≤ b then ofOrdered a b 1 h (by decide)
    else ofOrdered b a 1 (Int64.le_of_lt (Int64.not_le.1 h)) (by decide)

/-! ## Values -/

/-- Whether the progression has one value only. -/
def isSingle (p : Progression) : Bool := p.min == p.max

/-- The step, or 0 for a single value, which is aligned to any step. -/
def stride (p : Progression) : Word := if p.isSingle then 0 else p.step

/-- The number of values; the full range of words counts `2^64 - 1`. -/
def size (p : Progression) : Nat :=
  Nat.min (Word.distance p.min p.max / p.step.toNatClampNeg + 1) (Word.countBound - 1)

/-- Whether a word is a value. -/
def includes (p : Progression) (v : Word) : Bool :=
  p.min ≤ v && v ≤ p.max && Word.distance p.min v % p.step.toNatClampNeg == 0

/-- The value `k` steps above the lowest. -/
def value (p : Progression) (k : Nat) : Word := p.min + Int64.ofNat k * p.step

/-- The lowest `n` values, in ascending order. -/
def take (p : Progression) (n : Nat) : List Word :=
  (List.range (Nat.min n p.size)).map p.value

/-- All values, in ascending order. -/
def values (p : Progression) : List Word := p.take p.size

/-- Whether every value of `q` is a value of `p`. -/
def contains (p q : Progression) : Bool :=
  p.min ≤ q.min && q.max ≤ p.max && p.includes q.min && (q.isSingle || q.step % p.step == 0)

/-- Whether every value is a multiple of `d`. -/
def multiplesOf (p : Progression) (d : Word) : Except Fault Bool := do
  if d = 0 then return false
  if (← Word.exactRem p.min d) ≠ 0 then return false
  return p.stride % d == 0

/-! ## Cutting -/

/-- The lowest value at or above a bound. -/
def firstFrom (p : Progression) (bound : Word) : Option Word :=
  if p.max < bound then none
  else if bound ≤ p.min then some p.min
  else
    let d := p.step.toNatClampNeg
    some (p.min + Int64.ofNat ((Word.distance p.min bound + d - 1) / d * d))

/-- The highest value at or below a bound. -/
def lastTo (p : Progression) (bound : Word) : Option Word :=
  if bound < p.min then none
  else if p.max ≤ bound then some p.max
  else
    let d := p.step.toNatClampNeg
    some (p.min + Int64.ofNat (Word.distance p.min bound / d * d))

/-- A set of words cut at zero. -/
structure SignParts where
  negative : List Progression
  hasZero : Bool
  positive : List Progression

/-- The values below zero, whether zero is a value, and the values above. -/
def splitSign (p : Progression) : SignParts where
  negative := ((p.lastTo (-1)).map fun last => new p.min last p.step).toList
  hasZero := p.includes 0
  positive := ((p.firstFrom 1).map fun first => new first p.max p.step).toList

/-- The opposites of the values. -/
def negated (p : Progression) : Except Fault Progression := do
  return new (← Word.exactNeg p.max) (← Word.exactNeg p.min) p.step

/-! ## Text -/

/-- A single value as itself, others as `min..max`, with ` step d` unless the
    step is 1. -/
def text (p : Progression) : String :=
  if p.isSingle then Word.text p.min
  else if p.step ≠ 1 then
    Word.text p.min ++ ".." ++ Word.text p.max ++ " step " ++ Word.text p.step
  else Word.text p.min ++ ".." ++ Word.text p.max

end Progression

end InputSolver
