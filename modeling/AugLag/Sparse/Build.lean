import AugLag.Sparse.Transpose

/-! Sparse matrices from coordinates and from dense data. -/
namespace AugLag.SparseMatrix

variable {T : Type} [Scalar T]

/-- One entry with its coordinates. -/
structure Triplet (T : Type) where
  row : Nat
  col : Nat
  value : T

/-- Adds up neighbours of one row, from left to right. -/
def combineRows : List (Nat × T) → List (Nat × T)
  | (i, a) :: (j, b) :: rest =>
    if i = j then combineRows ((i, a + b) :: rest) else (i, a) :: combineRows ((j, b) :: rest)
  | short => short
termination_by entries => entries.length

/-- The entries of column `j` in order of their rows, where entries of one place are added in the order given. -/
def gatherColumn (triplets : List (Triplet T)) (j : Nat) : List (Nat × T) :=
  let here := (triplets.filter fun t => t.col == j).map fun t => (t.row, t.value)
  combineRows (here.mergeSort fun a b => a.1 ≤ b.1)

/-- The sum of all triplets, each of which lies inside the matrix, put together column by column. -/
def sumTriplets (rows cols : Nat) (triplets : List (Triplet T)) : SparseMatrix T :=
  ofColumns rows ((List.range cols).map (gatherColumn triplets))

/-! ### Triplets from outside -/

/-- The triplets that three arrays of one length hold. -/
def Triplet.ofArrays (rowIdx colIdx : Array Nat) (values : Array T) : List (Triplet T) :=
  rowIdx.toList.zip (colIdx.toList.zip values.toList) |>.map fun e => { row := e.1, col := e.2.1, value := e.2.2 }

/-- Columns come first in the order of places, then rows. -/
def Triplet.upTo (s t : Triplet T) : Bool := s.col < t.col || (s.col == t.col && s.row ≤ t.row)

/-- Puts an entry down behind the last one, or adds it to the last one if both have one place. The last one is the head. -/
def putDown : List (Triplet T) → Triplet T → List (Triplet T)
  | last :: placed, t =>
    if last.col = t.col ∧ last.row = t.row then { last with value := last.value + t.value } :: placed
    else t :: last :: placed
  | [], t => [t]

/-- The triplets in the order of their places, where those of one place are added in the order given. -/
def mergePlaces (triplets : List (Triplet T)) : List (Triplet T) :=
  ((triplets.mergeSort Triplet.upTo).foldl putDown []).reverse

/-- One more than an index, as a machine counts: behind the last word comes zero. -/
def nextIndex (i : Nat) : Nat := (i + 1) % UInt64.size

/-- The number of entries of each column, kept one place behind the column. -/
def countColumns (cols : Nat) (entries : List (Triplet T)) : Array Nat :=
  entries.foldl (fun counts t => counts.modify (nextIndex t.col) (· + 1)) (Array.replicate (cols + 1) 0)

/-- The sum of all triplets, as arrays. Of the columns it is only asked that they can be counted, and nothing of the rows. -/
def assemble? (rows cols : Nat) (triplets : List (Triplet T)) : Option (SparseMatrix T) :=
  let entries := mergePlaces triplets
  if entries.all fun t => nextIndex t.col ≤ cols then
    ofArrays? rows cols (accumulate (countColumns cols entries)) (entries.map Triplet.row).toArray
      (entries.map Triplet.value).toArray
  else none

/-- One more than the largest index. -/
def extent (indices : Array Nat) : Nat := indices.toList.max?.elim 0 nextIndex

/-- The sum of the triplets given by three arrays of one length. An index outside of the matrix is reported
by the smallest size that holds every entry. -/
def ofTriplets? (rows cols : Nat) (rowIdx colIdx : Array Nat) (values : Array T) :
    Option (Except DimensionMismatch (SparseMatrix T)) :=
  if colIdx.size ≠ rowIdx.size ∨ values.size ≠ rowIdx.size then
    some (.error { expected := (rowIdx.size, rowIdx.size), found := (colIdx.size, values.size) })
  else if rows < extent rowIdx ∨ cols < extent colIdx then
    some (.error { expected := (rows, cols), found := (Nat.max (extent rowIdx) rows, Nat.max (extent colIdx) cols) })
  else (assemble? rows cols (Triplet.ofArrays rowIdx colIdx values)).map .ok

/-! ### Dense data -/

/-- The entries of a dense column that differ from zero. -/
def nonzeros (column : List T) : List (Nat × T) :=
  (List.range column.length).zip column |>.filter fun e => !(e.2 == 0)

/-- Dense data in column order. -/
def ofDense (rows cols : Nat) (data : Array T) : SparseMatrix T :=
  ofColumns rows ((List.range cols).map fun j => nonzeros (data.extract (j * rows) ((j + 1) * rows)).toList)

/-- A list in pieces of `size + 1` elements, of which the last may be shorter. -/
def pieces {α : Type} (size : Nat) : List α → List (List α)
  | [] => []
  | a :: rest => (a :: rest.take size) :: pieces size (rest.drop size)
termination_by l => l.length

/-- Dense data in column order, read piece by piece. A matrix without rows has no pieces, so that the pointers of its
columns are added at the end. -/
def ofDense? (rows cols : Nat) (data : Array T) : Option (SparseMatrix T) :=
  if data.size = rows * cols then
    let stored := ofColumns rows (((pieces (rows - 1) data.toList).take cols).map nonzeros)
    let missing := Array.replicate (cols + 1 - stored.colPtr.size) stored.rowIdx.size
    ofArrays? rows cols (stored.colPtr ++ missing) stored.rowIdx stored.values
  else none

/-- The nonzero entries of rows, row by row. -/
def Triplet.ofRows (rows : List (List T)) : List (Triplet T) :=
  (List.range rows.length).zip rows |>.flatMap fun r =>
    (nonzeros r.2).map fun e => { row := r.1, col := e.1, value := e.2 }

/-- Dense data given as a list of rows of equal length. -/
def ofRows? (cols : Nat) (rows : List (List T)) : Option (SparseMatrix T) :=
  assemble? rows.length cols (Triplet.ofRows rows)

end AugLag.SparseMatrix
