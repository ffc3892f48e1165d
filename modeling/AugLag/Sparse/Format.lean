import AugLag.Sparse.Basic

/-! Which arrays describe a sparse matrix, and which matrices are upper triangular. -/
namespace AugLag.SparseMatrix

variable {T : Type}

/-- Neighbours in the list satisfy `p`. -/
def chained {α : Type} (p : α → α → Bool) : List α → Bool
  | a :: b :: rest => p a b && chained p (b :: rest)
  | _ => true

/-- The lengths agree with the dimensions and with the last column pointer. -/
def lengthsAgree (M : SparseMatrix T) : Bool :=
  M.colPtr.size == M.cols + 1 && M.rowIdx.size == M.values.size && M.nnz == M.values.size

/-- The column pointers start at zero and never decrease. -/
def pointersAscend (M : SparseMatrix T) : Bool :=
  M.first 0 == 0 && chained (fun a b => decide (a ≤ b)) M.colPtr.toList

def rowsInside (M : SparseMatrix T) : Bool := M.rowIdx.all fun r => decide (r < M.rows)

/-- The rows of every column increase strictly. -/
def rowsAscend (M : SparseMatrix T) : Bool :=
  (List.range M.cols).all fun j => chained (fun a b => decide (a < b)) ((M.slots j).map M.rowAt)

variable [Scalar T]

/-- Finds the first defect, in the order lengths, column pointers, row bounds, row order, values. -/
def check (M : SparseMatrix T) : Except SparseFormatError Unit :=
  if !M.lengthsAgree then .error .incompatibleDimension
  else if !M.pointersAscend then .error .badColumnPointers
  else if !M.rowsInside then .error .badRowIndex
  else if !M.rowsAscend then .error .badRowOrdering
  else if !M.values.all Scalar.isFinite then .error .nonFiniteValue
  else .ok ()

/-- Column `j` has no entry below the diagonal. -/
def columnIsUpper (M : SparseMatrix T) (j : Nat) : Bool := (M.slots j).all fun k => M.rowAt k ≤ j

/-- No entry is stored below the diagonal. -/
def isUpper (M : SparseMatrix T) : Bool := (List.range M.cols).all M.columnIsUpper

/-- As `isUpper`, looking no further than the first column that decides the answer. -/
def isUpper? (M : SparseMatrix T) : Option Bool :=
  match (List.range M.cols).find? fun j => !(M.rowsReadable j && M.columnIsUpper j) with
  | none => some true
  | some j => if M.rowsReadable j then some false else none

end AugLag.SparseMatrix
