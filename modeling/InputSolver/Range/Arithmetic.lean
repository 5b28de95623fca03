/-
  InputSolver — sums, products and quotients of ranges.

  Each operator says in an `Operation` how one pair of values, and one pair
  of progressions, combine.  `combine` goes over all pairs of members as long
  as they are few: a pair whose result is a progression gives it, a small
  pair is listed value by value, and for any other a surrounding progression
  stands in.  Ranges with many members are listed as a whole or, if that is
  too much, replaced by their hulls below, at and above zero.
-/
import InputSolver.Range.Sets

namespace InputSolver.Range

/-- How an operator acts on values and on progressions of values. -/
structure Operation where
  /-- the result for two values -/
  value : Word → Word → Word
  /-- the progression of all results for two progressions, where the operator
      knows it without listing them -/
  known? : Progression → Progression → Option Progression
  /-- a progression that contains all results -/
  hull : Progression → Progression → Progression

/-- The most pairs of members that are combined one by one. -/
def pairLimit : Nat := 64

/-- The results of an operator on all pairs of values from two lists. -/
def pairValues (f : Word → Word → Word) (as bs : List Word) : List Word :=
  as.flatMap fun a => bs.map (f a)

/-- The results for one pair of members. -/
def combinePair (op : Operation) (p q : Progression) : Except Fault (List Progression) :=
  match op.known? p q with
  | some result => return [result]
  | none =>
    if p.size * q.size ≤ enumerationLimit then
      (·.members) <$> ofValues (pairValues op.value p.values q.values)
    else return [op.hull p q]

/-- The range of an operator on operands drawn from two ranges. -/
def combine (op : Operation) (r s : Range) : Except Fault Range :=
  if r.isEmpty || s.isEmpty then return empty
  else if r.members.length * s.members.length ≤ pairLimit then do
    let parts ← r.members.mapM fun p => s.members.mapM fun q => combinePair op p q
    ofProgressions parts.flatten.flatten
  else if r.size * s.size ≤ enumerationLimit then
    ofValues (pairValues op.value r.values s.values)
  else
    let pieces := r.signHulls.flatMap fun p => s.signHulls.map fun q => op.hull p q
    return ⟨(Progression.hull? pieces).toList⟩

/-! ## Sums -/

def sumOperation : Operation where
  value a b := a + b
  known? p q :=
    let result step :=
      some (Progression.new (Word.satAdd p.min q.min) (Word.satAdd p.max q.max) step)
    if p.isSingle then result q.step
    else if q.isSingle then result p.step
    else if p.step = q.step then result p.step
    else none
  hull p q :=
    .new (Word.satAdd p.min q.min) (Word.satAdd p.max q.max) (Word.gcd p.stride q.stride)

/-- The range of sums. -/
def sum (r s : Range) : Except Fault Range := combine sumOperation r s

/-! ## Products -/

/-- The interval around some words. -/
def cornerHull (a b c d : Word) : Progression :=
  let lower (x y : Word) := if y < x then y else x
  let higher (x y : Word) := if x < y then y else x
  .new (lower (lower a b) (lower c d)) (higher (higher a b) (higher c d)) 1

/-- The multiples of a progression by a factor. -/
def scaled (factor : Word) (p : Progression) : Progression :=
  if factor = 0 then .single 0
  else
    .new (Word.satMul p.min factor) (Word.satMul p.max factor)
      (Word.satMul p.step (Word.satAbs factor))

def productOperation : Operation where
  value a b := a * b
  known? p q :=
    if p.isSingle then some (scaled p.min q)
    else if q.isSingle then some (scaled q.min p)
    else none
  hull p q :=
    cornerHull (Word.satMul p.min q.min) (Word.satMul p.min q.max)
      (Word.satMul p.max q.min) (Word.satMul p.max q.max)

/-- The range of products. -/
def product (r s : Range) : Except Fault Range := combine productOperation r s

/-! ## Quotients -/

/-- Quotients are monotone in the dividend and, for divisors of one sign, in
    the divisor, so the extremes are quotients of bounds.  Divisors of both
    signs never give a quotient larger than the dividend. -/
def quotientOperation : Operation where
  value a b := a / b
  known? p q := if p.isSingle && q.isSingle then some (.single (p.min / q.min)) else none
  hull p q :=
    if q.min ≤ 0 ∧ 0 ≤ q.max then
      let lo := Word.satAbs p.min
      let hi := Word.satAbs p.max
      let bound := if lo ≤ hi then hi else lo
      .new (-bound) bound 1
    else cornerHull (p.min / q.min) (p.min / q.max) (p.max / q.min) (p.max / q.max)

/-- The range of quotients by the non-zero divisors, cut towards zero. -/
def quotient (r divisors : Range) : Except Fault Range := do
  combine quotientOperation r (← divisors.withoutZero)

/-! ## Equality tests -/

/-- An equality test gives 0 or 1, whatever the ranges of its operands. -/
def equality (_ _ : Range) : Range := progression 0 1 1

end InputSolver.Range
