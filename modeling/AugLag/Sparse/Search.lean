import AugLag.Sparse.Basic

/-! Search for a row in the sorted rows of a column. -/
namespace AugLag

/-- Halves a window of `size` places starting at `base` until one place is left. The upper half is kept
unless its first place compares as greater than what is sought. -/
def bisect (compare : Nat → Ordering) (base size : Nat) : Nat :=
  if size ≤ 1 then base
  else
    let mid := base + size / 2
    bisect compare (if compare mid = .gt then base else mid) (size - size / 2)
termination_by size

/-- The number of places of a window that come before the cut of a monotone property. -/
def cutPoint (before : Nat → Bool) (base size : Nat) : Nat :=
  if size = 0 then 0
  else
    let k := bisect (fun i => if before i then .lt else .gt) base size
    k - base + (if before k then 1 else 0)

namespace SparseMatrix

variable {T : Type}

/-- The slot of the entry in row `i` of column `j`. -/
def findSlot (M : SparseMatrix T) (i j : Nat) : Option Nat :=
  let count := M.stop j - M.first j
  if count = 0 then none
  else
    let k := bisect (fun k => compare (M.rowAt k) i) (M.first j) count
    if M.rowAt k = i then some k else none

variable [Scalar T]

/-- The value in row `i` of column `j`, if it is stored. -/
def get (M : SparseMatrix T) (i j : Nat) : Option T := (M.findSlot i j).map M.valueAt

def get? (M : SparseMatrix T) (i j : Nat) : Option (Option T) :=
  if i < M.rows ∧ j < M.cols ∧ M.rowsReadable j ∧ (M.findSlot i j).all (· < M.values.size) then
    some (M.get i j)
  else none

/-- The number of entries of column `j` on or above the diagonal. -/
def upperCount (M : SparseMatrix T) (j : Nat) : Nat :=
  cutPoint (fun k => M.rowAt k ≤ j) (M.first j) (M.stop j - M.first j)

/-- The entries on and above the diagonal of a matrix with sorted columns. -/
def upperTriangle (M : SparseMatrix T) : SparseMatrix T :=
  ofColumns M.rows ((List.range M.cols).map fun j => (M.column j).take (M.upperCount j))

def upperTriangle? (M : SparseMatrix T) : Option (SparseMatrix T) :=
  if M.isSquare && (List.range M.cols).all fun j =>
      M.rowsReadable j && M.first j + M.upperCount j ≤ M.values.size then
    some M.upperTriangle
  else none

end SparseMatrix
end AugLag
