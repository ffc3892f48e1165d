import AugLag.Elimination.Rule
import AugLag.Factor.Permute
import AugLag.Factor.Tree
import AugLag.Sparse.Format

/-! Triangular factors `L D Lᵀ` of a symmetric matrix whose rows and columns are permuted. -/
namespace AugLag

/-- Why a matrix has no factors, or why they could not be modified. -/
inductive FactorError
  | incompatibleDimension
  | emptyColumn
  | notUpperTriangular
  | zeroPivot
  | notPositiveDefinite
  | invalidPermutation
  | orderingFailed
deriving DecidableEq, Repr

def FactorError.message : FactorError → String
  | .incompatibleDimension => "matrix is not square"
  | .emptyColumn => "matrix has a column without structural entries"
  | .notUpperTriangular => "matrix is not upper triangular"
  | .zeroPivot => "factorization produced a zero or non-finite pivot"
  | .notPositiveDefinite => "rank one modification produced a nonpositive pivot"
  | .invalidPermutation => "invalid permutation vector"
  | .orderingFailed => "AMD ordering failed"

/-- Factors of `P A Pᵀ`, together with the stored values of that matrix. The values may be replaced without
touching the factors, and the factors may be modified without touching the values. -/
structure Factorization (T : Type) where
  /-- Row and column `perm[i]` of the matrix come at place `i`. -/
  perm : Array Nat
  inverse : Array Nat
  /-- The entries of `L` below its unit diagonal. -/
  lower : SparseMatrix T
  diag : Array T
  diagInv : Array T
  stored : PermutedUpper T
  tree : EliminationTree
  /-- The number of positive pivots. -/
  positive : Nat

namespace Factorization

variable {T : Type}

def dim (F : Factorization T) : Nat := F.diag.size

/-- The checks that a matrix has to pass before it is ordered. -/
def checkStructure (A : SparseMatrix T) (upper : Bool) : Except FactorError Unit :=
  if !A.isSquare then .error .incompatibleDimension
  else if !upper then .error .notUpperTriangular
  else if !SparseMatrix.chained (fun a b => a != b) A.colPtr.toList then .error .emptyColumn
  else .ok ()

/-- The order of elimination: the given one, or that of the rule. -/
def chooseOrder [Elimination.Rule] (A : SparseMatrix T) (given : Option (Array Nat)) (denseScale : Float) :
    Except FactorError (Array Nat) :=
  match given with
  | some perm => if perm.size = A.cols then .ok perm else .error .invalidPermutation
  | none =>
    if A.cols ≠ 0 ∧ A.first 0 ≠ 0 then .error .orderingFailed
    else .ok (Elimination.Rule.order (Elimination.graph A) denseScale).toArray

variable [Scalar T]

/-- The pattern of the factors, all of whose values are zero. -/
def analyze (A : SparseMatrix T) (perm inverse : Array Nat) : Factorization T :=
  let stored := PermutedUpper.ofMatrix A inverse
  let tree := EliminationTree.ofMatrix stored.matrix
  let ptr := tree.count.foldl (fun ptr c => ptr.push (ptr.back?.getD 0 + c)) #[0]
  let nnz := ptr.back?.getD 0
  { perm
    inverse
    lower :=
      { rows := A.cols
        cols := A.cols
        colPtr := ptr
        rowIdx := Array.replicate nnz 0
        values := Array.replicate nnz 0 }
    diag := Array.replicate A.cols 0
    diagInv := Array.replicate A.cols 0
    stored
    tree
    positive := 0 }

/-- Replaces the values of slots of the matrix from which the factors were made. -/
def updateValues (F : Factorization T) (slots : List Nat) (values : List T) : Factorization T :=
  let M := F.stored.matrix
  let replaced := (slots.zip values).foldl (fun v e => v.setIfInBounds (F.stored.slotOf.getD e.1 0) e.2) M.values
  { F with stored := { F.stored with matrix := { M with values := replaced } } }

def updateValues? (F : Factorization T) (slots : Array Nat) (values : Array T) : Option (Factorization T) :=
  if slots.size = values.size ∧ slots.all (· < F.stored.slotOf.size) then
    some (F.updateValues slots.toList values.toList)
  else none

end Factorization
end AugLag
