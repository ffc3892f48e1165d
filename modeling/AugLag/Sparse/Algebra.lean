import AugLag.Sparse.Basic

/-! Sums and scalings of sparse matrices. -/
namespace AugLag.SparseMatrix

variable {T : Type} [Scalar T]

/-- Merges the slots of `A` from `i` up to `iend` and those of `B` from `j` up to `jend` in the order of their rows.
A row that both store gets the sum. -/
def mergeSlots (A B : SparseMatrix T) (i iend j jend : Nat) : List (Nat × T) :=
  if i < iend then
    if j < jend then
      if A.rowAt i < B.rowAt j then (A.rowAt i, A.valueAt i) :: mergeSlots A B (i + 1) iend j jend
      else if B.rowAt j < A.rowAt i then (B.rowAt j, B.valueAt j) :: mergeSlots A B i iend (j + 1) jend
      else (A.rowAt i, A.valueAt i + B.valueAt j) :: mergeSlots A B (i + 1) iend (j + 1) jend
    else (A.rowAt i, A.valueAt i) :: mergeSlots A B (i + 1) iend j jend
  else if j < jend then (B.rowAt j, B.valueAt j) :: mergeSlots A B i iend (j + 1) jend
  else []
termination_by (iend - i) + (jend - j)

/-- The columns of two matrices merged. Every place that one of them stores is stored. -/
def merged (A B : SparseMatrix T) : SparseMatrix T :=
  ofColumns A.rows ((List.range A.cols).map fun j => mergeSlots A B (A.first j) (A.stop j) (B.first j) (B.stop j))

/-- The sum of two matrices of one size. -/
def add (A B : SparseMatrix T) : Except DimensionMismatch (SparseMatrix T) :=
  if A.size ≠ B.size then .error { expected := A.size, found := B.size } else .ok (A.merged B)

/-- All columns of the matrix can be walked slot by slot. -/
def walkable (A : SparseMatrix T) : Bool :=
  A.cols < A.colPtr.size &&
    (List.range A.cols).all fun j => (A.slots j).all fun k => k < A.rowIdx.size && k < A.values.size

def add? (A B : SparseMatrix T) : Option (Except DimensionMismatch (SparseMatrix T)) :=
  if A.size ≠ B.size || (A.walkable && B.walkable) then some (A.add B) else none

/-- Every value times `c`. -/
def scale (A : SparseMatrix T) (c : T) : SparseMatrix T := { A with values := A.values.map (· * c) }

/-- Row `i` times `left[i]` and column `j` times `right[j]`; the two factors are multiplied first. -/
def scaleBoth {m n : Nat} (A : SparseMatrix T) (left : Vector T m) (right : Vector T n) : SparseMatrix T :=
  let scaleSlot (j : Nat) (values : Array T) (k : Nat) : Array T :=
    values.modify k (· * (Vec.get left (A.rowAt k) * Vec.get right j))
  { A with values := (List.range n).foldl (fun v j => (A.slots j).foldl (scaleSlot j) v) A.values }

def scaleBoth? (A : SparseMatrix T) (left right : Array T) : Option (SparseMatrix T) := do
  let left ← Vec.ofArray? A.rows left
  let right ← Vec.ofArray? A.cols right
  if A.entriesBelow A.rows then some (A.scaleBoth left right) else none

end AugLag.SparseMatrix
