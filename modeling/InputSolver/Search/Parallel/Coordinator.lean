/-
  InputSolver — collecting the answers of the workers.

  Workers send messages in any order.  The coordinator keeps the success and
  the error of the best rank, and the counters of each worker that came to
  its end; the answer is what a search over the ranks in order would have met
  first.
-/
import InputSolver.Search.Statistics

namespace InputSolver.Parallel

/-- A message from a worker. -/
inductive Message where
  /-- a job has come to its end, with or without a solution -/
  | finished (worker rank : Nat) (solution? : Option Solution)
  /-- a job has failed -/
  | failed (worker rank : Nat) (error : EvalError)
  /-- a worker has no more jobs -/
  | done (worker : Nat) (statistics : Statistics)

/-- What the messages said. -/
structure Coordinator where
  best? : Option (Nat × Solution)
  error? : Option (Nat × EvalError)
  /-- the workers that came to their end, the latest first -/
  done : List (Nat × Statistics)

/-- The answer of a search with several workers. -/
structure Outcome where
  result : SearchResult
  workers : List (Nat × Statistics)

namespace Coordinator

/-- No message yet. -/
def start : Coordinator := ⟨none, none, []⟩

/-- Of an earlier and a new item the one of the better rank. -/
def better {α : Type} (old? : Option (Nat × α)) (rank : Nat) (a : α) : Option (Nat × α) :=
  match old? with
  | some old => if rank < old.1 then some (rank, a) else some old
  | none => some (rank, a)

/-- Takes in a message. -/
def receive (c : Coordinator) : Message → Coordinator
  | .finished _ _ none => c
  | .finished _ rank (some solution) => { c with best? := better c.best? rank solution }
  | .failed _ rank error => { c with error? := better c.error? rank error }
  | .done worker statistics => { c with done := (worker, statistics) :: c.done }

/-- The error that comes before any success. -/
def leadingError? (c : Coordinator) : Option EvalError :=
  match c.error?, c.best? with
  | some (rank, error), some (best, _) => if rank < best then some error else none
  | some (_, error), none => some error
  | none, _ => none

/-- The answer once all messages are in. -/
def outcome (c : Coordinator) : Except Fault (Except EvalError Outcome) := do
  match c.leadingError? with
  | some error => return .error error
  | none =>
    let workers := c.done.reverse
    let statistics ← workers.foldlM (fun s w => s.merge w.2) (Statistics.zero .backtracking)
    return .ok ⟨⟨c.best?.map (·.2), statistics⟩, workers⟩

end Coordinator

end InputSolver.Parallel
