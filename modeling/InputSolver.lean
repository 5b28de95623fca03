import InputSolver.Main
import InputSolver.Proofs.Expr.PostOrder
import InputSolver.Proofs.Expr.Range
import InputSolver.Proofs.Generate.Pairs
import InputSolver.Proofs.Generate.Programs
import InputSolver.Proofs.Normal.Disjoint
import InputSolver.Proofs.Normal.Termination
import InputSolver.Proofs.Program.Faults
import InputSolver.Proofs.Program.Inputs
import InputSolver.Proofs.Program.Lines
import InputSolver.Proofs.Program.Optimum
import InputSolver.Proofs.Progression.Representation
import InputSolver.Proofs.Range.Exact
import InputSolver.Proofs.Range.Joining
import InputSolver.Proofs.Range.Signs
import InputSolver.Proofs.Range.Tight
import InputSolver.Proofs.Search.Counters
import InputSolver.Proofs.Search.ModelNumber
import InputSolver.Proofs.Search.NormalForms
import InputSolver.Proofs.Search.Odometer
import InputSolver.Proofs.Search.Parallel.Settled
import InputSolver.Proofs.Search.Parallel.Survivors
import InputSolver.Proofs.Search.Parallel.Updates
