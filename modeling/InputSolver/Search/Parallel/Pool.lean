/-
  InputSolver — a search with several workers.

  The digits of the first input are spread over workers as jobs.  A success
  asks the jobs of worse rank to stop, so the answer is that of the search
  digit by digit, whatever the order in which the workers take turns.  Here
  they take turns one job at a time.  A worker whose job faults is lost; the
  others go on.
-/
import InputSolver.Search.Parallel.Coordinator
import InputSolver.Search.Parallel.Jobs
import InputSolver.Search.Parallel.SharedBest
import InputSolver.Search.Run

namespace InputSolver.Parallel

/-- A worker and its counters. -/
structure Worker where
  id : Nat
  session : Session

/-- The workers that are left, in the order of their turns, and what they
    share. -/
structure Pool where
  workers : List Worker
  shared : SharedBest
  coordinator : Coordinator
  graph : Graph

namespace Pool

/-- Notes the answer to a job. -/
def report (p : Pool) (worker rank : Nat) : Except EvalError (Option Solution) → Pool
  | .ok none => { p with coordinator := p.coordinator.receive (.finished worker rank none) }
  | .ok (some solution) =>
    { p with
      shared := (p.shared.tryUpdate rank).2
      coordinator := p.coordinator.receive (.finished worker rank (some solution)) }
  | .error error => { p with coordinator := p.coordinator.receive (.failed worker rank error) }

/-- Lets the worker whose turn it is take a job. -/
def runJob (config : SearchConfig) (e : Expr) (p : Pool) (job : Job) : Pool :=
  match p.workers with
  | [] => p
  | worker :: others =>
    if p.shared.isSuperseded job.rank then
      report { p with workers := others ++ [worker] } worker.id job.rank (.ok none)
    else
      let session := worker.session.setStop (p.shared.flag? job.rank)
      match (session.searchFrom config e [job.digit]).run.run p.graph with
      | (.error _, graph) => { p with workers := others, graph }
      | (.ok (answer, session), graph) =>
        report { p with workers := others ++ [{ worker with session }], graph }
          worker.id job.rank answer

/-- Lets the workers that are left come to their end.  That jobs were stopped
    is no interruption of the search. -/
def finish (p : Pool) : Coordinator :=
  p.workers.foldl
    (fun c w => c.receive (.done w.id { w.session.statistics with interrupted := false }))
    p.coordinator

end Pool

/-- The first solution, found by some workers together.  Without an input
    there is nothing to spread. -/
def search (config : SearchConfig) (e : Expr) (count : WorkerCount) :
    GraphM (Except EvalError Outcome) := do
  if e.inputIndices.isEmpty then
    let result ← runSearch (Backtrack.search (config.query e (.constant false)))
    return result.map fun r => ⟨r, []⟩
  else
    let jobs := Job.ranked config.direction.digits
    let workers := (List.range (count.effective jobs.length)).map fun id => Worker.mk id .start
    let pool : Pool := ⟨workers, .new jobs.length, .start, ← get⟩
    let pool := jobs.foldl (Pool.runJob config e) pool
    set pool.graph
    pool.finish.outcome

end InputSolver.Parallel
