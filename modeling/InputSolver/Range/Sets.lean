/-
  InputSolver — ranges as sets.

  * `meets` and `meet` test for and collect the values common to two ranges;
  * `sameValues` compares two ranges value by value where they are small;
  * `withoutZero` and `signParts` cut a range at zero.
-/
import InputSolver.Range.Basic
import InputSolver.Progression.Meet

namespace InputSolver.Range

/-- The largest number of values, or of pairs of values, that is listed one
    by one. -/
def enumerationLimit : Nat := 4096

/-! ## Common values -/

/-- Whether the overall bounds of two ranges overlap. -/
def boundsOverlap (r s : Range) : Bool :=
  match r.min?, r.max?, s.min?, s.max? with
  | some rlo, some rhi, some slo, some shi => slo ≤ rhi && rlo ≤ shi
  | _, _, _, _ => false

/-- Whether two ranges have a value in common. -/
def meets (r s : Range) : Bool :=
  boundsOverlap r s && r.members.any fun p => s.members.any fun q => (p.meet? q).isSome

/-- The values common to two ranges. -/
def meet (r s : Range) : Except Fault Range :=
  ofProgressions (r.members.flatMap fun p => s.members.filterMap fun q => p.meet? q)

/-- The values of a range in ascending order, each once. -/
def sortedValues (r : Range) : List Word := (r.values.mergeSort fun a b => a ≤ b).eraseReps

/-- Whether two ranges are known to have the same values: their members
    agree, or both are small enough to be listed. -/
def sameValues (r s : Range) : Bool :=
  r == s ||
    (r.min? == s.min? && r.max? == s.max? &&
      r.size ≤ enumerationLimit && s.size ≤ enumerationLimit &&
      r.sortedValues == s.sortedValues)

/-! ## Cutting at zero -/

/-- The parts of the members below and above zero, and whether zero is a
    value. -/
def signParts (r : Range) : Progression.SignParts where
  negative := r.members.flatMap (·.splitSign.negative)
  hasZero := r.members.any (·.splitSign.hasZero)
  positive := r.members.flatMap (·.splitSign.positive)

/-- All values but zero. -/
def withoutZero (r : Range) : Except Fault Range :=
  ofProgressions (r.members.flatMap fun p => p.splitSign.negative ++ p.splitSign.positive)

/-- A progression around the values below zero, zero itself, and one around
    the values above, as far as there are any. -/
def signHulls (r : Range) : List Progression :=
  let parts := r.signParts
  (Progression.hull? parts.negative).toList ++
    (if parts.hasZero then [Progression.single 0] else []) ++
    (Progression.hull? parts.positive).toList

end InputSolver.Range
