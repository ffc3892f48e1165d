import AugLag.Log
import AugLag.Problem.Program
import AugLag.Settings.Validate
import AugLag.Sparse.Build
import AugLag.Sparse.Format
import AugLag.Sparse.Search

/-! Programs as they are handed in: every part may be missing, a matrix may be dense or malformed. Validation checks
the parts in a fixed order and reports the first failure. -/
namespace AugLag

inductive MatrixInput (T : Type)
  | sparse (matrix : SparseMatrix T)
  /-- Dense data in column order. -/
  | dense (rows cols : Nat) (data : Array T)

/-- The parts of a problem that an error may name. -/
inductive ProblemPart
  | cost
  | costRows
  | costColumns
  | linearCost
  | constraints
  | constraintColumns
  | lowerBounds
  | upperBounds
  | primalPoint
  | dualPoint
deriving DecidableEq, Repr

def ProblemPart.name : ProblemPart → String
  | .cost => "Q"
  | .costRows => "Q rows"
  | .costColumns => "Q columns"
  | .linearCost => "q"
  | .constraints => "A"
  | .constraintColumns => "A columns"
  | .lowerBounds => "bmin"
  | .upperBounds => "bmax"
  | .primalPoint => "x"
  | .dualPoint => "y"

/-- Why a problem is not set up. -/
inductive SetupError
  | noVariables
  | boundsMismatch
  | dimensionMismatch (what : ProblemPart) (expected found : Nat)
  /-- A lower bound exceeds the upper one, or one of them is NaN. -/
  | inconsistentBounds (constraint : Nat)
  | badFormat (cause : SparseFormatError)
  | badSettings (cause : SettingsError)
  | linearSolver (cause : NewtonError)
deriving DecidableEq, Repr

def SetupError.message : SetupError → String
  | .noVariables => "Problem has no variables: at least one of Q, q or A is required"
  | .boundsMismatch => "Constraint matrix A and both bounds bmin, bmax must be supplied together"
  | .dimensionMismatch what expected found =>
    s!"Dimension mismatch in {what.name}: expected {expected}, found {found}"
  | .inconsistentBounds i => s!"Inconsistent bounds for constraint {i}"
  | .badFormat cause => s!"Bad problem data: {cause.message}"
  | .badSettings cause => s!"Bad settings: {cause.message}"
  | .linearSolver cause => s!"Linear solver setup failed: {cause.message}"

structure ProblemInput (T : Type) where
  Q : Option (MatrixInput T)
  q : Option (Array T)
  A : Option (MatrixInput T)
  bmin : Option (Array T)
  bmax : Option (Array T)

namespace MatrixInput

variable {T : Type} [Scalar T]

def size : MatrixInput T → Nat × Nat
  | sparse M => M.size
  | dense rows cols _ => (rows, cols)

/-- Dense data must fill the matrix. -/
def checkLength (what : ProblemPart) : MatrixInput T → Except SetupError Unit
  | sparse _ => .ok ()
  | dense rows cols data =>
    if data.size = rows * cols then .ok () else .error (.dimensionMismatch what (rows * cols) data.size)

def check : MatrixInput T → Except SparseFormatError Unit
  | sparse M => M.check
  | dense _ _ data => if data.all Scalar.isFinite then .ok () else .error .nonFiniteValue

/-- The matrix in sparse format, and what is to be said about a conversion. -/
def toSparse (what : ProblemPart) : MatrixInput T → SparseMatrix T × List (Event T)
  | sparse M => (M, [])
  | dense rows cols data => (SparseMatrix.ofDense rows cols data, [.denseConverted what.name rows cols])

end MatrixInput

/-- Fails unless a part has the expected dimension. -/
def checkDimension (what : ProblemPart) (expected found : Nat) : Except SetupError Unit :=
  if expected = found then .ok () else .error (.dimensionMismatch what expected found)

/-- The first constraint whose bounds are not in order. A NaN is never in order. -/
def inconsistentBound? {T : Type} [Scalar T] (bmin bmax : Array T) : Option Nat :=
  (bmin.toList.zip bmax.toList).findIdx? fun b => !(b.1 ≤ b.2)

namespace ProblemInput

variable {T : Type} [Scalar T]

/-- Constraints and both bounds come together, or none of them does. -/
def boundsComplete (P : ProblemInput T) : Bool :=
  P.A.isSome == P.bmin.isSome && P.A.isSome == P.bmax.isSome

/-- The number of variables, told by the first of `Q`, `q` and `A` that is present. -/
def variableCount (P : ProblemInput T) : Nat :=
  match P.Q, P.q, P.A with
  | some Q, _, _ => Q.size.2
  | none, some q, _ => q.size
  | none, none, some A => A.size.2
  | none, none, none => 0

def constraintCount (P : ProblemInput T) : Nat := (P.A.map fun A => A.size.1).getD 0

/-- Applies a check to a part that is present. -/
def whenPresent {α : Type} (part : Option α) (check : α → Except SetupError Unit) : Except SetupError Unit :=
  match part with
  | some a => check a
  | none => .ok ()

def checkDimensions (P : ProblemInput T) : Except SetupError Unit := do
  let n := P.variableCount
  let m := P.constraintCount
  whenPresent P.Q fun Q => do
    Q.checkLength .cost
    checkDimension .costRows n Q.size.1
    checkDimension .costColumns n Q.size.2
  whenPresent P.q fun q => checkDimension .linearCost n q.size
  whenPresent P.A fun A => do
    A.checkLength .constraints
    checkDimension .constraintColumns n A.size.2
  whenPresent P.bmin fun b => checkDimension .lowerBounds m b.size
  whenPresent P.bmax fun b => checkDimension .upperBounds m b.size

def checkBounds (P : ProblemInput T) : Except SetupError Unit :=
  match P.bmin, P.bmax with
  | some bmin, some bmax =>
    match inconsistentBound? bmin bmax with
    | some i => .error (.inconsistentBounds i)
    | none => .ok ()
  | _, _ => .ok ()

def checkFormats (P : ProblemInput T) : Except SetupError Unit := do
  whenPresent P.Q fun Q => Q.check.mapError .badFormat
  whenPresent P.A fun A => A.check.mapError .badFormat
  whenPresent P.q fun q => if q.all Scalar.isFinite then .ok () else .error (.badFormat .nonFiniteValue)

/-- The numbers of variables and constraints of a valid problem. -/
def validate (P : ProblemInput T) (c : Settings T) : Except SetupError (Nat × Nat) := do
  if P.Q.isNone && P.q.isNone && P.A.isNone then throw .noVariables
  if !P.boundsComplete then throw .boundsMismatch
  P.checkDimensions
  P.checkBounds
  P.checkFormats
  c.validate.mapError .badSettings
  return (P.variableCount, P.constraintCount)

/-- The program of a valid problem: missing parts are zero or empty, bounds are clamped to the limit, and of the
quadratic cost only the upper triangle is kept. -/
def normalize (P : ProblemInput T) (n m : Nat) (limit : T) : QuadraticProgram T n m × List (Event T) :=
  let (Q, costLog) := match P.Q with
    | some Q =>
      let (Q, log) := Q.toSparse .cost
      (Q.upperTriangle, log)
    | none => (SparseMatrix.zeros n n, [])
  let (A, constraintLog) := match P.A with
    | some A => A.toSparse .constraints
    | none => (SparseMatrix.zeros 0 n, [])
  let bound (b : Option (Array T)) : Vector T m := Vec.clamp (Vec.read m (b.getD #[])) (-limit) limit
  ({ Q, q := Vec.read n (P.q.getD #[]), A, bmin := bound P.bmin, bmax := bound P.bmax, limit },
    costLog ++ constraintLog)

end ProblemInput
end AugLag
