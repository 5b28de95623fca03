/-
  InputSolver — the best rank so far.

  Jobs have ranks, the best of them 0.  The workers share the best rank with
  a success, and a flag for each rank that asks its job to stop.

  * `lowerTo` and `setFlag` are the single steps, which workers may take in
    any order; `tryUpdate` takes all those of one success.
-/
namespace InputSolver.Parallel

/-- The rank that stands for none: the highest of 64 bits. -/
def noRank : Nat := 0xffffffffffffffff

/-- The best rank with a success, and one flag for each job. -/
structure SharedBest where
  best : Nat
  cancelled : List Bool
  deriving DecidableEq

namespace SharedBest

/-- No success yet. -/
def new (jobs : Nat) : SharedBest := ⟨noRank, List.replicate jobs false⟩

/-- The best rank, if there is one. -/
def best? (s : SharedBest) : Option Nat := if s.best = noRank then none else some s.best

/-- Lowers the best rank to a rank, if that is better. -/
def lowerTo (s : SharedBest) (rank : Nat) : SharedBest := { s with best := Nat.min s.best rank }

/-- Asks the job of a rank to stop. -/
def setFlag (s : SharedBest) (rank : Nat) : SharedBest :=
  { s with cancelled := s.cancelled.set rank true }

/-- The ranks that a success at `rank` asks to stop. -/
def worseRanks (s : SharedBest) (rank : Nat) : List Nat :=
  (List.range s.cancelled.length).filter fun r => rank < r

/-- Notes a success; whether it is the best so far. -/
def tryUpdate (s : SharedBest) (rank : Nat) : Bool × SharedBest :=
  if rank < s.best then (true, (s.worseRanks rank).foldl setFlag (s.lowerTo rank))
  else (false, s.lowerTo rank)

/-- Whether a better rank has a success. -/
def isSuperseded (s : SharedBest) (rank : Nat) : Bool := s.best < rank

/-- The flag of a rank that has a job. -/
def flag? (s : SharedBest) (rank : Nat) : Option Bool := s.cancelled[rank]?

end SharedBest

end InputSolver.Parallel
