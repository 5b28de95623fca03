/-
  InputSolver — remainders of ranges.

  A remainder has the sign of its dividend and a magnitude below that of its
  divisor.  The range of remainders is always an interval:

  * `outerBounds` gives bounds from the extremes of the dividends and the
    largest divisor alone;
  * `probe` computes the bounds for one divisor magnitude after the other,
    the largest first, until they reach the outer ones; it gives up when its
    budget of listed values is used up.
-/
import InputSolver.Range.Sets

namespace InputSolver.Range

/-- How many values the search for exact bounds may list. -/
def probeBudget : Nat := 65536

/-- The lowest and the highest value of an interval. -/
structure Bounds where
  lo : Word
  hi : Word
  deriving DecidableEq

namespace Bounds

/-- The smallest interval around a bounded or empty set and an interval. -/
def widen (b? : Option Bounds) (lo hi : Word) : Bounds :=
  match b? with
  | some b => ⟨if lo < b.lo then lo else b.lo, if b.hi < hi then hi else b.hi⟩
  | none => ⟨lo, hi⟩

def toRange (b : Bounds) : Range := progression b.lo b.hi 1

end Bounds

/-! ## Bounds from the extremes -/

/-- The largest magnitude of a divisor. -/
def largestMagnitude (divisors : Range) : Nat :=
  divisors.members.foldl (fun m p => Nat.max m (Nat.max p.min.toInt.natAbs p.max.toInt.natAbs)) 0

/-- The bounds on a remainder for dividends with the given sign parts and
    remainders of no more than the given magnitude. -/
def outerBounds (parts : Progression.SignParts) (magnitude : Word) : Option Bounds :=
  let lower (v w : Word) : Word := if w < v then w else v
  let negative := (parts.negative.map (·.min)).min?.map fun lowest =>
    Bounds.mk (-(lower (Word.satAbs lowest) magnitude)) 0
  let withZero := if parts.hasZero then some (Bounds.widen negative 0 0) else negative
  match (parts.positive.map (·.max)).max? with
  | some highest => some (Bounds.widen withZero 0 (lower highest magnitude))
  | none => withZero

/-! ## Bounds by probing -/

/-- The lowest and the highest remainder of a list of words. -/
def listedBounds (modulus : Word) : List Word → Option Bounds
  | [] => none
  | v :: vs =>
    some (vs.foldl (fun b w => Bounds.widen (some b) (w % modulus) (w % modulus))
      ⟨v % modulus, v % modulus⟩)

/-- The bounds on the remainder of a positive progression by a positive
    modulus, and the budget left; nothing if listing the values would exceed
    the budget.

    Residues recur with period `modulus / g`, where `g` is the greatest
    common divisor of step and modulus, and a full period reaches every
    residue that agrees with the lowest value modulo `g`. -/
def residueBounds (p : Progression) (modulus : Word) (budget : Nat) : Option (Bounds × Nat) :=
  if modulus = 1 then some (⟨0, 0⟩, budget)
  else if p.max < modulus then some (⟨p.min, p.max⟩, budget)
  else if p.isSingle then some (⟨p.min % modulus, p.min % modulus⟩, budget)
  else
    let g := Word.gcd p.step modulus
    if (modulus / g).toNatClampNeg ≤ p.size then
      some (⟨p.min % g, modulus - g + p.min % g⟩, budget)
    else if budget < p.size then none
    else (listedBounds modulus p.values).map fun b => (b, budget - p.size)

/-- What probing knows: the bounds so far and the budget left. -/
structure Probe where
  found : Option Bounds
  budget : Nat

/-- The bounds for one modulus over one part of the dividends, whose values
    are all negative or all positive. -/
def probePart (modulus : Word) (s : Probe) (part : Progression) : Except Fault (Option Probe) :=
  if part.max < 0 then do
    return (residueBounds (← part.negated) modulus s.budget).map fun (b, budget) =>
      ⟨some (Bounds.widen s.found (-b.hi) (-b.lo)), budget⟩
  else
    return (residueBounds part modulus s.budget).map fun (b, budget) =>
      ⟨some (Bounds.widen s.found b.lo b.hi), budget⟩

/-- The bounds for one modulus over all parts. -/
def probeParts (modulus : Word) : List Progression → Probe → Except Fault (Option Probe)
  | [], s => return some s
  | part :: parts, s => do
    let some s ← probePart modulus s part | return none
    probeParts modulus parts s

/-- The bounds over all moduli, as soon as they reach the outer ones. -/
def probe (outer : Bounds) (parts : List Progression) :
    List Word → Probe → Except Fault (Option Bounds)
  | [], s => return s.found
  | modulus :: moduli, s => do
    let some s ← probeParts modulus parts s | return none
    if s.found = some outer then return s.found else probe outer parts moduli s

/-! ## The range of remainders -/

/-- The range of remainders of dividends with the given sign parts by
    divisors other than zero. -/
def remainderOfParts (parts : Progression.SignParts) (divisors : Range) : Except Fault Range :=
  match outerBounds parts (Word.clamp (largestMagnitude divisors - 1)) with
  | none => return empty
  | some outer =>
    if probeBudget < divisors.size then return outer.toRange
    else do
      let moduli := ((divisors.values.map Word.satAbs).mergeSort fun a b => b ≤ a).eraseReps
      let start : Probe :=
        ⟨if parts.hasZero then some ⟨0, 0⟩ else none, probeBudget - divisors.size⟩
      let found ← probe outer (parts.negative ++ parts.positive) moduli start
      return (found.getD outer).toRange

/-- The range of remainders by the non-zero divisors; a remainder has the
    sign of its dividend. -/
def remainder (r divisors : Range) : Except Fault Range := do
  let divisors ← divisors.withoutZero
  if r.isEmpty || divisors.isEmpty then return empty
  match r.singleValue?, divisors.singleValue? with
  | some a, some b => return single (a % b)
  | _, _ => remainderOfParts r.signParts divisors

end InputSolver.Range
