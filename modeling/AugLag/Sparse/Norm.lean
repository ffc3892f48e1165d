import AugLag.Sparse.Basic

/-! Maximum norms of the rows and columns of sparse matrices. -/
namespace AugLag.SparseMatrix

variable {T : Type} [Scalar T] {m n : Nat}

/-- Raises element `i` to the magnitude of `v`. -/
def raise (norms : Vector T n) (i : Nat) (v : T) : Vector T n :=
  Vec.update norms i (Scalar.max · (Scalar.abs v))

/-- The norm of each column of the symmetric matrix whose upper triangle is stored. -/
def symColumnNorms (Q : SparseMatrix T) (n : Nat) : Vector T n :=
  (List.range n).foldl (fun norms j =>
    (Q.column j).foldl (fun norms e => raise (raise norms j e.2) e.1 e.2) norms) (Vec.zeros n)

/-- Raises each element to the norm of its column, so that norms of stacked blocks can be folded block by block. -/
def foldColumnNorms (A : SparseMatrix T) (norms : Vector T n) : Vector T n :=
  norms.mapIdx fun j v => (A.column j).foldl (fun m e => Scalar.max m (Scalar.abs e.2)) v

/-- The norm of each row. -/
def rowNorms (A : SparseMatrix T) (m : Nat) : Vector T m :=
  (A.rowIdx.toList.zip A.values.toList).foldl (fun norms e => raise norms e.1 e.2) (Vec.zeros m)

def symColumnNorms? (Q : SparseMatrix T) (norms : Array T) : Option (Array T) :=
  if norms.size = Q.cols ∧ Q.entriesBelow Q.cols then some (Q.symColumnNorms Q.cols).toArray else none

def foldColumnNorms? (A : SparseMatrix T) (norms : Array T) : Option (Array T) := do
  let norms ← Vec.ofArray? A.cols norms
  if (List.range A.cols).all A.columnReadable then some (A.foldColumnNorms norms).toArray else none

def rowNorms? (A : SparseMatrix T) (norms : Array T) : Option (Array T) :=
  if norms.size = A.rows ∧ (A.rowIdx.toList.take A.values.size).all (· < A.rows) then
    some (A.rowNorms A.rows).toArray
  else none

end AugLag.SparseMatrix
