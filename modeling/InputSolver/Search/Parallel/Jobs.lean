/-
  InputSolver — jobs and workers.

  A job is one digit for the first input; its rank is the place of that digit
  in the order of the search.  The jobs wait in a queue from which every
  worker takes the next one.
-/
import InputSolver.Search.Config

namespace InputSolver.Parallel

/-- A digit for the first input. -/
structure Job where
  rank : Nat
  digit : Word
  deriving DecidableEq

namespace Job

/-- Jobs for some digits, ranked in order. -/
def ranked (digits : List Word) : List Job :=
  digits.mapIdx fun rank digit => ⟨rank, digit⟩

end Job

/-- The jobs that wait, the next one first. -/
structure JobQueue where
  waiting : List Job

namespace JobQueue

/-- Takes the next job, if any is left. -/
def take? (q : JobQueue) : Option Job × JobQueue :=
  match q.waiting with
  | [] => (none, q)
  | job :: rest => (some job, ⟨rest⟩)

end JobQueue

/-- How many workers a search may use. -/
structure WorkerCount where
  workers : Nat
  workers_pos : 0 < workers

namespace WorkerCount

/-- The given number of workers, at least one. -/
def ofNat (n : Nat) : WorkerCount := ⟨Nat.max n 1, by simp only [Nat.max_def]; split <;> omega⟩

/-- The number of workers for some jobs: no more than jobs, at least one. -/
def effective (c : WorkerCount) (jobs : Nat) : Nat := Nat.max (Nat.min c.workers jobs) 1

end WorkerCount

end InputSolver.Parallel
