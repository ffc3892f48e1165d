import AugLag.Vec.Basic

/-! Sparse matrices stored by columns. The type promises nothing about its arrays: reading is total, and
`SparseMatrix.check` tells which arrays describe a matrix. A name ending in `?` is an operation that
answers `none` where the arrays or the vectors given to it do not fit together. -/
namespace AugLag

/-- Column `j` holds the slots from `colPtr[j]` up to `colPtr[j + 1]`; slot `k` is `values[k]` in row `rowIdx[k]`. -/
structure SparseMatrix (T : Type) where
  rows : Nat
  cols : Nat
  colPtr : Array Nat
  rowIdx : Array Nat
  values : Array T

/-- A defect of the arrays of a sparse matrix. -/
inductive SparseFormatError
  | incompatibleDimension
  | badRowOrdering
  | badRowIndex
  | badColumnPointers
  | nonFiniteValue
deriving DecidableEq, Repr

def SparseFormatError.message : SparseFormatError → String
  | .incompatibleDimension => "array lengths do not match the matrix dimensions"
  | .badRowOrdering => "row indices are not strictly increasing within a column"
  | .badRowIndex => "row index out of bounds"
  | .badColumnPointers => "column pointers are not a nondecreasing sequence from zero"
  | .nonFiniteValue => "matrix contains a NaN or infinite value"

/-- Operands of incompatible size: the size that was needed and the one that was given. -/
structure DimensionMismatch where
  expected : Nat × Nat
  found : Nat × Nat
deriving DecidableEq, Repr

def DimensionMismatch.message (e : DimensionMismatch) : String :=
  s!"dimension mismatch: expected ({e.expected.1}, {e.expected.2}), found ({e.found.1}, {e.found.2})"

namespace SparseMatrix

variable {T : Type}

def size (M : SparseMatrix T) : Nat × Nat := (M.rows, M.cols)

/-- The size of the transpose. -/
def adjointSize (M : SparseMatrix T) : Nat × Nat := (M.cols, M.rows)

def isSquare (M : SparseMatrix T) : Bool := M.rows == M.cols

/-- The number of stored entries, as the last column pointer tells it. -/
def nnz (M : SparseMatrix T) : Nat := M.colPtr.getD M.cols 0

def nnz? (M : SparseMatrix T) : Option Nat := M.colPtr[M.cols]?

def first (M : SparseMatrix T) (j : Nat) : Nat := M.colPtr.getD j 0

def stop (M : SparseMatrix T) (j : Nat) : Nat := M.colPtr.getD (j + 1) 0

/-- The slots of column `j`, from the first to the last. -/
def slots (M : SparseMatrix T) (j : Nat) : List Nat := List.range' (M.first j) (M.stop j - M.first j)

def rowAt (M : SparseMatrix T) (k : Nat) : Nat := M.rowIdx.getD k 0

def valueAt [Scalar T] (M : SparseMatrix T) (k : Nat) : T := M.values.getD k 0

/-- The entries of column `j` as pairs of row and value. -/
def column [Scalar T] (M : SparseMatrix T) (j : Nat) : List (Nat × T) :=
  (M.slots j).map fun k => (M.rowAt k, M.valueAt k)

/-- Both pointers of column `j` exist. -/
def hasColumn (M : SparseMatrix T) (j : Nat) : Bool := j + 1 < M.colPtr.size

/-- Column `j` is a stretch of the row indices. -/
def rowsReadable (M : SparseMatrix T) (j : Nat) : Bool :=
  M.hasColumn j && M.first j ≤ M.stop j && M.stop j ≤ M.rowIdx.size

/-- Column `j` is a stretch of the row indices and of the values. -/
def columnReadable (M : SparseMatrix T) (j : Nat) : Bool :=
  M.rowsReadable j && M.stop j ≤ M.values.size

/-- Every column can be read and its rows are below `bound`. -/
def entriesBelow (M : SparseMatrix T) (bound : Nat) : Bool :=
  (List.range M.cols).all fun j => M.columnReadable j && (M.slots j).all fun k => M.rowAt k < bound

/-- Takes arrays as a matrix if their lengths agree with each other and with the last column pointer. -/
def ofArrays? (rows cols : Nat) (colPtr rowIdx : Array Nat) (values : Array T) : Option (SparseMatrix T) :=
  if colPtr.size = cols + 1 ∧ rowIdx.size = values.size ∧ colPtr.getD cols 0 = values.size then
    some { rows, cols, colPtr, rowIdx, values }
  else none

section
variable [Scalar T]

/-- Room for `nnz` entries, all of them in the last column until they are placed. -/
def allocate (rows cols nnz : Nat) : SparseMatrix T where
  rows := rows
  cols := cols
  colPtr := (Array.replicate (cols + 1) 0).setIfInBounds cols nnz
  rowIdx := Array.replicate nnz 0
  values := Array.replicate nnz 0

/-- The matrix without entries. -/
def zeros (rows cols : Nat) : SparseMatrix T := allocate rows cols 0

def identity (n : Nat) : SparseMatrix T where
  rows := n
  cols := n
  colPtr := Array.range (n + 1)
  rowIdx := Array.range n
  values := Array.replicate n 1

/-- Equality of sizes, arrays and values, where values are compared as numbers. -/
def beq (M N : SparseMatrix T) : Bool :=
  M.rows == N.rows && M.cols == N.cols && M.colPtr == N.colPtr && M.rowIdx == N.rowIdx &&
    M.values == N.values

end

/-- The matrix whose columns hold the given entries in the given order. -/
def ofColumns (rows : Nat) (columns : List (List (Nat × T))) : SparseMatrix T where
  rows := rows
  cols := columns.length
  colPtr := columns.foldl (fun ptr c => ptr.push (ptr.back?.getD 0 + c.length)) #[0]
  rowIdx := (columns.flatMap fun c => c.map Prod.fst).toArray
  values := (columns.flatMap fun c => c.map Prod.snd).toArray

end SparseMatrix
end AugLag
