import AugLag.Sparse.Transpose

/-! Symmetric permutations of a matrix whose upper triangle is stored. -/
namespace AugLag

/-- The inverse of a permutation of `0, …, size - 1`, and `none` if the array is no such permutation. -/
def invertPermutation? (perm : Array Nat) : Option (Array Nat) :=
  let step (acc : Option (Array (Option Nat))) (i : Nat) : Option (Array (Option Nat)) :=
    acc.bind fun inverse =>
      match inverse[perm.getD i 0]? with
      | some none => some (inverse.setIfInBounds (perm.getD i 0) (some i))
      | _ => none
  ((List.range perm.size).foldl step (some (Array.replicate perm.size none))).map fun inverse =>
    inverse.map (·.getD 0)

/-- A permuted upper triangle, and the slot in it of every slot of the matrix it was made from. -/
structure PermutedUpper (T : Type) where
  matrix : SparseMatrix T
  slotOf : Array Nat

namespace PermutedUpper

variable {T : Type} [Scalar T]

/-- The place in the upper triangle to which a permutation moves row `i` and column `j`. -/
def target (inverse : Array Nat) (i j : Nat) : Nat × Nat :=
  let r := inverse.getD i 0
  let c := inverse.getD j 0
  (min r c, max r c)

/-- The places of the entries in the order of the slots. -/
def targets (A : SparseMatrix T) (inverse : Array Nat) : List (Nat × Nat × Nat) :=
  (List.range A.cols).flatMap fun j => (A.slots j).map fun k => (k, target inverse (A.rowAt k) j)

/-- Puts an entry into the next free slot of its column. -/
def place (A : SparseMatrix T) (acc : Array Nat × PermutedUpper T) (e : Nat × Nat × Nat) :
    Array Nat × PermutedUpper T :=
  let (k, r, c) := e
  let p := acc.1.getD c 0
  let M := acc.2.matrix
  (acc.1.modify c (· + 1),
    { matrix := { M with
        rowIdx := M.rowIdx.setIfInBounds p r
        values := M.values.setIfInBounds p (A.valueAt k) }
      slotOf := acc.2.slotOf.setIfInBounds k p })

/-- The upper triangle of `P A Pᵀ`. The rows within a column are left in the order in which they arrive. -/
def ofMatrix (A : SparseMatrix T) (inverse : Array Nat) : PermutedUpper T :=
  let entries := targets A inverse
  let counts := entries.foldl (fun counts e => counts.modify (e.2.2 + 1) (· + 1)) (Array.replicate (A.cols + 1) 0)
  let ptr := SparseMatrix.accumulate counts
  let empty : SparseMatrix T :=
    { rows := A.cols
      cols := A.cols
      colPtr := ptr
      rowIdx := Array.replicate A.nnz 0
      values := Array.replicate A.nnz 0 }
  (entries.foldl (place A) (ptr, { matrix := empty, slotOf := Array.replicate A.nnz 0 })).2

end PermutedUpper
end AugLag
