import AugLag.Sparse.Basic

/-! The entries of a sparse matrix by rows, and its transpose. Both are counting sorts: the rows are counted,
their first places are summed up, and the entries are put down in column order. -/
namespace AugLag.SparseMatrix

variable {T : Type}

/-- Turns counts kept one place to the right into first places. -/
def accumulate (counts : Array Nat) : Array Nat :=
  (List.range (counts.size - 1)).foldl (fun ptr i => ptr.modify (i + 1) (· + ptr.getD i 0)) counts

/-- The first place of each row when all entries are sorted by rows, and their number at the end. -/
def rowPointers (M : SparseMatrix T) : Array Nat :=
  accumulate (M.rowIdx.foldl (fun counts r => counts.modify (r + 1) (· + 1)) (Array.replicate (M.rows + 1) 0))

/-- The entries of all rows, as slots of the matrix in the order of rows. -/
structure RowIndex where
  ptr : Array Nat
  slots : Array Nat

/-- The slots of row `r`, in the order of their columns. -/
def RowIndex.row (index : RowIndex) (r : Nat) : List Nat :=
  (List.range' (index.ptr.getD r 0) (index.ptr.getD (r + 1) 0 - index.ptr.getD r 0)).map
    fun p => index.slots.getD p 0

/-- Puts slot `k` into the next free place of its row. -/
def placeSlot (M : SparseMatrix T) (acc : Array Nat × Array Nat) (k : Nat) : Array Nat × Array Nat :=
  let r := M.rowAt k
  (acc.1.modify r (· + 1), acc.2.setIfInBounds (acc.1.getD r 0) k)

def rowIndex (M : SparseMatrix T) : RowIndex :=
  let ptr := M.rowPointers
  let placed := (List.range M.rowIdx.size).foldl M.placeSlot (ptr, Array.replicate M.nnz 0)
  { ptr, slots := placed.2 }

/-- The column of every slot. -/
def columnOfSlot (M : SparseMatrix T) : Array Nat :=
  (List.range M.cols).foldl (fun out j => (M.slots j).foldl (fun out k => out.setIfInBounds k j) out)
    (Array.replicate M.nnz 0)

variable [Scalar T]

/-- Puts the entry of slot `k`, which lies in column `j`, into the next free place of its row. -/
def placeEntry (M : SparseMatrix T) (j : Nat) (acc : Array Nat × Array Nat × Array T) (k : Nat) :
    Array Nat × Array Nat × Array T :=
  let r := M.rowAt k
  let place := acc.1.getD r 0
  (acc.1.modify r (· + 1), acc.2.1.setIfInBounds place j, acc.2.2.setIfInBounds place (M.valueAt k))

def transpose (M : SparseMatrix T) : SparseMatrix T :=
  let ptr := M.rowPointers
  let placed := (List.range M.cols).foldl (fun acc j => (M.slots j).foldl (M.placeEntry j) acc)
    (ptr, Array.replicate M.nnz 0, Array.replicate M.nnz 0)
  { rows := M.cols, cols := M.rows, colPtr := ptr, rowIdx := placed.2.1, values := placed.2.2 }

/-- The row of every slot that some column visits. -/
def visitedRows (M : SparseMatrix T) : List Nat :=
  (List.range M.cols).flatMap fun j => (M.slots j).map M.rowAt

/-- Every entry put down by `transpose` finds a place. -/
def placesSuffice (M : SparseMatrix T) : Bool :=
  let visited := M.visitedRows
  visited.all fun r => M.rowPointers.getD r 0 + visited.count r ≤ M.nnz

def transpose? (M : SparseMatrix T) : Option (SparseMatrix T) :=
  if M.cols < M.colPtr.size && M.rowIdx.all (fun r => decide (r < M.rows)) &&
      (List.range M.cols).all (fun j => (M.slots j).all fun k => k < M.rowIdx.size && k < M.values.size) &&
      M.placesSuffice then
    some M.transpose
  else none

end AugLag.SparseMatrix
