/-
  InputSolver — statistics of a search.

  A search counts the assignments it tries, those it leaves out because the
  target is out of range, and the exact checks.

  * `merge` adds the counters of another search;
  * `pruneRate` and `throughput` are the rates, `summary` the report;
  * `SearchResult` is what a search found, with its statistics.
-/
import InputSolver.Double
import InputSolver.Search.Solution

namespace InputSolver

/-- Counters of a search. -/
structure Statistics where
  algorithm : Algorithm
  /-- the time taken, in nanoseconds -/
  nanoseconds : Nat
  /-- partial or full assignments tried -/
  visited : Nat
  /-- assignments left out because the target is out of range -/
  pruned : Nat
  /-- evaluations of the whole expression -/
  exactChecks : Nat
  /-- whether the search was stopped before its end -/
  interrupted : Bool
  deriving DecidableEq

namespace Statistics

/-- Nothing counted yet. -/
def zero (algorithm : Algorithm) : Statistics := ⟨algorithm, 0, 0, 0, 0, false⟩

/-- The sum of two counters, which have 64 bits. -/
def addCounter (a b : Nat) : Except Fault Nat :=
  if a + b < Word.countBound then .ok (a + b) else .error .overflow

/-- Adds the counters of another search. -/
def merge (s t : Statistics) : Except Fault Statistics := do
  let visited ← addCounter s.visited t.visited
  let pruned ← addCounter s.pruned t.pruned
  let exactChecks ← addCounter s.exactChecks t.exactChecks
  return { s with visited, pruned, exactChecks }

/-! ## Rates -/

/-- The part of the tried assignments that was left out. -/
def pruneRate (s : Statistics) : Double :=
  if s.visited = 0 then .ofNat 0 else (Double.ofNat s.pruned).div (.ofNat s.visited)

/-- The time taken in seconds. -/
def seconds (s : Statistics) : Double :=
  let whole := Double.ofNat (s.nanoseconds / 1000000000)
  whole.add ((Double.ofNat (s.nanoseconds % 1000000000)).div (.ofNat 1000000000))

/-- The assignments tried in a second. -/
def throughput (s : Statistics) : Double :=
  if s.nanoseconds = 0 then .ofNat 0 else (Double.ofNat s.visited).div s.seconds

/-! ## Text -/

/-- A time in the largest unit in which it is at least 1, with two
    decimals. -/
def timeText (nanoseconds : Nat) : String :=
  if 1000000000 ≤ nanoseconds then Text.fixed 2 nanoseconds 1000000000 ++ "s"
  else if 1000000 ≤ nanoseconds then Text.fixed 2 nanoseconds 1000000 ++ "ms"
  else if 1000 ≤ nanoseconds then Text.fixed 2 nanoseconds 1000 ++ "µs"
  else Text.fixed 2 nanoseconds 1 ++ "ns"

/-- The report, line by line. -/
def summaryLines (s : Statistics) : List String :=
  ["Algorithm: " ++ s.algorithm.text,
    "Time: " ++ timeText s.nanoseconds,
    "Nodes visited: " ++ toString s.visited,
    "Throughput: " ++ s.throughput.fixed 0 ++ " nodes/sec"] ++
  (if s.pruned = 0 then []
    else ["Branches pruned: " ++ toString s.pruned ++
      " (" ++ (s.pruneRate.mul (.ofNat 100)).fixed 2 ++ "%)"]) ++
  ["Exact checks: " ++ toString s.exactChecks] ++
  (if s.interrupted then ["Interrupted: yes"] else [])

/-- The report; every line has an end. -/
def summary (s : Statistics) : String := String.join (s.summaryLines.map (· ++ "\n"))

end Statistics

/-- What a search found, if anything, with its statistics. -/
structure SearchResult where
  solution? : Option Solution
  statistics : Statistics

namespace SearchResult

/-- The solution, then the report on the search. -/
def text (r : SearchResult) : String :=
  (match r.solution? with
    | some s => "Solution: " ++ s.modelNumber ++ "\n"
    | none => "No satisfying assignment\n") ++ r.statistics.summary

end SearchResult

end InputSolver
