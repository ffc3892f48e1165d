import AugLag.Scalar.Machine
import AugLag.Vec.Norm
import AugLag.Sparse.Format
import AugLag.Sparse.Search
import AugLag.Sparse.Build
import AugLag.Sparse.Transpose
import AugLag.Sparse.Algebra
import AugLag.Sparse.Product
import AugLag.Sparse.Norm
import AugLag.Elimination.Rule
import AugLag.Factor.Solve
import AugLag.Factor.RankOne
import AugLag.Settings.Draft
import AugLag.Penalty
import AugLag.Solver.Info
import AugLag.Problem.BoundLimit
import AugLag.Problem.Scaling
import AugLag.Timers
import AugLag.Newton.Engine
import AugLag.Problem.Equilibrate
import AugLag.Problem.Input
import AugLag.Solver.Residuals
import AugLag.Solver.Step
import AugLag.Solver.Spectrum
import AugLag.Solver.Basic
import AugLag.Decimal.Binary
import AugLag.Decimal.Notation
import AugLag.Decimal.Shortest
import AugLag.Json.Numeral
import AugLag.Json.Writer
import AugLag.Report.Number
import AugLag.Report.Target
import AugLag.Report.Text
import AugLag.Settings.Json
import AugLag.Sparse.Json
import AugLag.Workspace.Basic
import AugLag.Workspace.Dump
import AugLag.Workspace.Solve
import AugLag.Workspace.Update
import AugLag.Proofs.Exact.Scalar
import AugLag.Proofs.Exact.Vector
import AugLag.Proofs.Scatter
import AugLag.Proofs.Checks
import AugLag.Proofs.Insertion
import AugLag.Proofs.Settings
import AugLag.Proofs.Settings.Drafts
import AugLag.Proofs.Sparse.Layout
import AugLag.Proofs.Sparse.Pattern
import AugLag.Proofs.Sparse.Entry
import AugLag.Proofs.Sparse.Product
import AugLag.Proofs.Sparse.Search
import AugLag.Proofs.Sparse.Lookup
import AugLag.Proofs.Sparse.Build
import AugLag.Proofs.Sparse.CountingSort
import AugLag.Proofs.Sparse.Triplets
import AugLag.Proofs.Sparse.Assemble
import AugLag.Proofs.Sparse.Transpose
import AugLag.Proofs.Sparse.Sum
import AugLag.Proofs.Factor.Tree
import AugLag.Proofs.Factor.Definite
import AugLag.Proofs.Factor.Columns
import AugLag.Proofs.Factor.Pivots
import AugLag.Proofs.Factor.Permute
import AugLag.Proofs.Factor.Shape
import AugLag.Proofs.Factor.Numeric
import AugLag.Proofs.Factor.Solve
import AugLag.Proofs.Factor.RankOne
import AugLag.Proofs.Factor.Analysis
import AugLag.Proofs.Factor.Scratch
import AugLag.Proofs.Newton.Data
import AugLag.Proofs.Newton.Saddle
import AugLag.Proofs.Newton.Hessian
import AugLag.Proofs.Newton.AugmentedPattern
import AugLag.Proofs.Newton.AugmentedFresh
import AugLag.Proofs.Newton.AugmentedValues
import AugLag.Proofs.Newton.Augmented
import AugLag.Proofs.Newton.ReducedPattern
import AugLag.Proofs.Newton.ReducedFresh
import AugLag.Proofs.Newton.ReducedAssembly
import AugLag.Proofs.Newton.ReducedValues
import AugLag.Proofs.Newton.ReducedChanges
import AugLag.Proofs.Newton.Reduced
import AugLag.Proofs.Newton.Fresh
import AugLag.Proofs.Newton.Engine
import AugLag.Proofs.Problem.Valid
import AugLag.Proofs.Problem.Posed
import AugLag.Proofs.Problem.Stored
import AugLag.Proofs.Problem.Scaled
import AugLag.Proofs.Solver.Passes
import AugLag.Proofs.Solver.Invariant
import AugLag.Proofs.Solver.Optimality
import AugLag.Proofs.Solver.Certificate
import AugLag.Proofs.Solver.Ready
import AugLag.Proofs.Solver.Convex
import AugLag.Proofs.Solver.Simulation
import AugLag.Proofs.Solver.Replay
import AugLag.Proofs.Workspace.Calls
import AugLag.Proofs.Workspace.Session
import AugLag.Proofs.Workspace.Verdict
import AugLag.Proofs.Workspace.Stored
import AugLag.Proofs.Workspace.Convex
import AugLag.Proofs.Workspace.Replay
import AugLag.Proofs.Factor.Decomposition
import AugLag.Proofs.Newton.AugmentedHistory
import AugLag.Proofs.Solver.WarmStart
import AugLag.Proofs.Workspace.WarmStart
import AugLag.Proofs.Solver.Duality
import AugLag.Proofs.Workspace.Duality
import AugLag.Proofs.Workspace.Refusals
import AugLag.Proofs.Solver.AbsentBounds
import AugLag.Proofs.Workspace.AbsentBounds
import AugLag.Proofs.Solver.Separation
import AugLag.Proofs.Workspace.Separation
import AugLag.Proofs.Newton.Negative
import AugLag.Proofs.Solver.Curvature
import AugLag.Proofs.Workspace.Curvature
import AugLag.Proofs.Workspace.Passes
import AugLag.Proofs.Solver.Spectrum
import AugLag.Proofs.Solver.PowerIteration
import AugLag.Proofs.Solver.Floor
import AugLag.Proofs.Workspace.Floor
import AugLag.Proofs.Machine.Special
import AugLag.Proofs.Solver.Overflow
import AugLag.Proofs.Workspace.Overflow
import AugLag.Proofs.Machine.Zeros
import AugLag.Proofs.Sparse.Dense
import AugLag.Proofs.Factor.SignedOnes
import AugLag.Proofs.Newton.Opened
import AugLag.Proofs.Checked.Access
import AugLag.Proofs.Checked.Analysis
import AugLag.Proofs.Checked.Augmented
import AugLag.Proofs.Checked.Engine
import AugLag.Proofs.Checked.Iteration
import AugLag.Proofs.Checked.Setup
import AugLag.Proofs.Checked.Solver
import AugLag.Proofs.Checked.Workspace
import AugLag.Proofs.Factor.InPlace
import AugLag.Proofs.Factor.Accepted
import AugLag.Proofs.Factor.Calls
import AugLag.Proofs.Factor.Fill
import AugLag.Proofs.Factor.Modified
import AugLag.Proofs.Json.Reading
import AugLag.Proofs.Json.Numbers
import AugLag.Proofs.Json.Records
import AugLag.Proofs.Json.Dumps
import AugLag.Proofs.Exact.Extended
import AugLag.Proofs.Problem.Lifted
import AugLag.Proofs.Workspace.Proper
import AugLag.Proofs.Workspace.Dumped
import AugLag.Proofs.Workspace.Restored
import AugLag.Proofs.Problem.Bounds
import AugLag.Proofs.Problem.Rescaled
import AugLag.Proofs.Solver.LineSearch
import AugLag.Proofs.Solver.Backtracking
import AugLag.Proofs.Solver.Descent
import AugLag.Proofs.Solver.FullSteps
import AugLag.Proofs.Workspace.Descent
import AugLag.Proofs.Workspace.FullSteps
import AugLag.Proofs.Workspace.OmittedBounds
import AugLag.Proofs.Machine.Products
import AugLag.Proofs.Machine.Units
import AugLag.Proofs.Solver.Penalties
import AugLag.Proofs.Checked.Format
import AugLag.Proofs.Sparse.Adjoint
import AugLag.Proofs.Newton.ReducedPlaces
