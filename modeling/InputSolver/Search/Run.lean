/-
  InputSolver — running a search.

  `search` runs the algorithm that a configuration names; `Session` keeps a
  backtracking search with its counters and its stop flag from one question
  to the next.
-/
import InputSolver.Search.Exhaustive

namespace InputSolver

namespace SearchConfig

/-- The question a configuration asks about an expression. -/
def query (config : SearchConfig) (e : Expr) (stop : StopFlag) : Backtrack.Query :=
  ⟨e, config.target, config.direction, stop⟩

/-- The search of the configured algorithm. -/
def search (config : SearchConfig) (e : Expr) : SearchM SearchResult :=
  let q := config.query e (.constant false)
  match config.algorithm with
  | .backtracking => Backtrack.search q
  | .exhaustive => Exhaustive.search q

end SearchConfig

/-- Runs a search in a graph from fresh counters. -/
def runSearch {α : Type} (x : SearchM α) : GraphM (Except EvalError α) := ExceptT.mk fun g =>
  let (result, p) := x.run.run.run ⟨g, .zero .backtracking, 0⟩
  (result, p.graph)

/-- A backtracking search between two questions. -/
structure Session where
  statistics : Statistics
  stop : StopFlag

namespace Session

/-- Nothing counted, no stop flag. -/
def start : Session := ⟨.zero .backtracking, .constant false⟩

/-- Asks a question: the answer, and the search afterwards. -/
def ask {α : Type} (s : Session) (x : SearchM α) : GraphM (Except EvalError α × Session) :=
  ExceptT.mk fun g =>
    let (result, p) := x.run.run.run ⟨g, s.statistics, 0⟩
    (result.map fun answer => (answer, { s with statistics := p.statistics }), p.graph)

/-- The first solution, from fresh counters. -/
def search (s : Session) (config : SearchConfig) (e : Expr) :
    GraphM (Except EvalError (Option Solution) × Session) :=
  s.ask do return (← Backtrack.search (config.query e s.stop)).solution?

/-- The first solution with the leading digits given. -/
def searchFrom (s : Session) (config : SearchConfig) (e : Expr) (leading : List Word) :
    GraphM (Except EvalError (Option Solution) × Session) :=
  s.ask (Backtrack.searchFrom (config.query e s.stop) leading)

/-- Sets the stop flag to a constant, or takes it away. -/
def setStop (s : Session) (flag? : Option Bool) : Session :=
  { s with stop := .constant (flag?.getD false) }

/-- Forgets what was counted. -/
def reset (s : Session) : Session := { s with statistics := .zero .backtracking }

end Session

end InputSolver
