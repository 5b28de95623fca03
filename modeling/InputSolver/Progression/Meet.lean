/-
  InputSolver — common values of two progressions.

  * `meet?` is the progression of the common values, if there are any.

  The values of the coarser progression are tried from the first one in the
  common interval on: their residues modulo the finer step recur after as
  many tries as that step, so the search is bounded by it.  From the first
  common value on, the others follow at the least common multiple of the
  steps.
-/
import InputSolver.Progression.Basic

namespace InputSolver.Progression

/-- The first value of `fine` among the words `c, c + d, …` up to `hi`, of
    which `tries` are tried. -/
def firstCommon (fine : Progression) (hi d : Word) : (tries : Nat) → (c : Word) → Option Word
  | 0, _ => none
  | tries + 1, c =>
    if hi < c then none
    else if fine.includes c then some c
    else if Word.distance c hi < d.toNatClampNeg then none
    else firstCommon fine hi d tries (c + d)

/-- The words from `c` to `hi` at the given period.  A period that is not a
    word counts as a step of 1. -/
def cycle (c hi : Word) (period : Nat) : Progression :=
  let span := Word.distance c hi
  if span < period then single c
  else new c (c + Int64.ofNat (span / period * period)) (Int64.ofNat period)

/-- The common values of two progressions that both have several values, the
    coarser one first. -/
def meetStepped? (coarse fine : Progression) (lo hi : Word) : Option Progression := do
  let start ← coarse.firstFrom lo
  let c ← firstCommon fine hi coarse.step fine.step.toNatClampNeg start
  return cycle c hi (Nat.lcm coarse.step.toNatClampNeg fine.step.toNatClampNeg)

/-- The common values of two progressions. -/
def meet? (p q : Progression) : Option Progression :=
  let lo := if p.min ≤ q.min then q.min else p.min
  let hi := if p.max ≤ q.max then p.max else q.max
  if hi < lo then none
  else if p.isSingle then if q.includes p.min then some p else none
  else if q.isSingle then if p.includes q.min then some q else none
  else if q.step ≤ p.step then meetStepped? p q lo hi
  else meetStepped? q p lo hi

end InputSolver.Progression
