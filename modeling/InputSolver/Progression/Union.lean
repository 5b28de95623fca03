/-
  InputSolver — unions of progressions.

  * `union?` is the union of two progressions where it is a progression: one
    contains the other, or they have a common stride and the higher one
    starts no further than one stride above the end of the lower one;
  * `hull?` is a progression around any number of them, with the coarsest
    step that still reaches every value.
-/
import InputSolver.Progression.Basic

namespace InputSolver.Progression

/-- The order by lower bound, then by higher bound. -/
def boundsLE (p q : Progression) : Bool :=
  p.min < q.min || (p.min == q.min && p.max ≤ q.max)

/-- The step that a union of two progressions would have, the lower one
    first. -/
def commonStride? (a b : Progression) : Except Fault (Option Word) :=
  match a.isSingle, b.isSingle with
  | true, true => some <$> Word.exactSub b.min a.min
  | true, false => return some b.step
  | false, true => return some a.step
  | false, false => return if a.step = b.step then some a.step else none

/-- Joins two progressions, the lower one first, of which neither contains
    the other. -/
def join? (a b : Progression) : Except Fault (Option Progression) := do
  let some stride ← commonStride? a b | return none
  let gap := Word.distance a.min b.min
  if gap % stride.toNatClampNeg ≠ 0 ∨ a.max.toInt + stride.toInt < b.min.toInt then return none
  return some (new a.min (if a.max ≤ b.max then b.max else a.max) stride)

/-- The union of two progressions, if it is a progression. -/
def union? (p q : Progression) : Except Fault (Option Progression) :=
  let (a, b) := if p.boundsLE q then (p, q) else (q, p)
  if a.contains b then return some a
  else if b.contains a then return some b
  else join? a b

/-- A stride to which two strides and a difference of two values are all
    aligned. -/
def commonStep (s t difference : Word) : Word := Word.gcd (Word.gcd s t) difference

/-- The progression around some progressions: their overall bounds, and the
    coarsest step that still reaches every value of each. -/
def hull? : List Progression → Option Progression
  | [] => none
  | p :: ps =>
    let lo := ps.foldl (fun lo q => if q.min < lo then q.min else lo) p.min
    let hi := ps.foldl (fun hi q => if hi < q.max then q.max else hi) p.max
    some (new lo hi (ps.foldl (fun d q => commonStep d q.stride (q.min - p.min)) p.stride))

end InputSolver.Progression
