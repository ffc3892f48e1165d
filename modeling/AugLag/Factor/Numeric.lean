import AugLag.Factor.Basic

/-! Numeric factorization, one row of `L` after the other. Row `k` solves a triangular system with column `k` of
the matrix on the columns that the elimination tree reaches from it. -/
namespace AugLag.Factorization

variable {T : Type} [Scalar T]

/-- Factors of which some rows are computed, with the next free slot of each column. -/
structure Progress (T : Type) where
  lower : SparseMatrix T
  diag : Array T
  diagInv : Array T
  next : Array Nat
  positive : Nat

/-- Row `k` in the making: its values so far, and its pivot so far. -/
structure Row (T : Type) where
  y : Array T
  pivot : T

/-- Column `k` of the matrix, spread out. Of entries stored twice the later one counts. -/
def spread (A : SparseMatrix T) (k : Nat) : Row T :=
  (A.column k).foldl (fun r e => if e.1 = k then { r with pivot := e.2 } else { r with y := r.y.setIfInBounds e.1 e.2 })
    { y := Array.replicate A.cols 0, pivot := 0 }

/-- Eliminates column `c` from row `k`, and stores the entry of `L` in row `k` and column `c`. -/
def eliminateColumn (k : Nat) (acc : Progress T × Row T) (c : Nat) : Progress T × Row T :=
  let (s, r) := acc
  let yc := r.y.getD c 0
  let slot := s.next.getD c 0
  let y := (List.range' (s.lower.first c) (slot - s.lower.first c)).foldl
    (fun y p => y.modify (s.lower.rowAt p) (· - s.lower.valueAt p * yc)) r.y
  let l := yc * s.diagInv.getD c 0
  ({ s with
      lower := { s.lower with
        rowIdx := s.lower.rowIdx.setIfInBounds slot k
        values := s.lower.values.setIfInBounds slot l }
      next := s.next.modify c (· + 1) },
    { y, pivot := r.pivot - yc * l })

/-- Computes row `k` up to its pivot. -/
def computeRow (A : SparseMatrix T) (tree : EliminationTree) (s : Progress T) (k : Nat) : Progress T × T :=
  let rows := ((A.slots k).map A.rowAt).filter (· ≠ k)
  let (s, r) := (tree.reach k rows).foldl (eliminateColumn k) (s, spread A k)
  ({ s with diag := s.diag.setIfInBounds k r.pivot }, r.pivot)

/-- Computes the given rows. A zero or infinite pivot ends the computation and leaves it half done. -/
def computeRows (A : SparseMatrix T) (tree : EliminationTree) :
    List Nat → Progress T → Progress T × Except FactorError Unit
  | [], s => (s, .ok ())
  | k :: rest, s =>
    let (s, pivot) := computeRow A tree s k
    if pivot == 0 || !Scalar.isFinite pivot then (s, .error .zeroPivot)
    else
      computeRows A tree rest
        { s with
          diagInv := s.diagInv.setIfInBounds k (Scalar.recip pivot)
          positive := if 0 < pivot then s.positive + 1 else s.positive }

/-- Factors the stored values from scratch. After an error the factors are of no use, and no pivot counts. -/
def refactor (F : Factorization T) : Factorization T × Except FactorError Unit :=
  let start : Progress T :=
    { lower := F.lower
      diag := F.diag
      diagInv := F.diagInv
      next := F.lower.colPtr.pop
      positive := 0 }
  let (s, outcome) := computeRows F.stored.matrix F.tree (List.range F.dim) start
  ({ F with
      lower := s.lower
      diag := s.diag
      diagInv := s.diagInv
      positive := match outcome with
        | .ok () => s.positive
        | .error _ => 0 }, outcome)

/-- Factors of a matrix whose inverse permutation is known. -/
def ofPermutation (A : SparseMatrix T) (perm inverse : Array Nat) : Except FactorError (Factorization T) :=
  let (F, outcome) := (analyze A perm inverse).refactor
  outcome.map fun _ => F

/-- Factors of a matrix whose upper triangle is stored, in the given order or in one chosen to keep them sparse. -/
def ofMatrix [Elimination.Rule] (A : SparseMatrix T) (order : Option (Array Nat)) (denseScale : Float) :
    Except FactorError (Factorization T) := do
  checkStructure A A.isUpper
  let perm ← chooseOrder A order denseScale
  match invertPermutation? perm with
  | none => .error .invalidPermutation
  | some inverse => ofPermutation A perm inverse

/-- As `ofMatrix`, for arrays that need not describe a matrix. -/
def ofMatrix? [Elimination.Rule] (A : SparseMatrix T) (order : Option (Array Nat)) (denseScale : Float) :
    Option (Except FactorError (Factorization T)) :=
  let readable := A.cols < A.colPtr.size && A.first 0 = 0 && A.nnz ≤ A.values.size
  if !A.isSquare then some (.error .incompatibleDimension)
  else
    match A.isUpper? with
    | none => none
    | some false => some (.error .notUpperTriangular)
    | some true =>
      match checkStructure A true, (chooseOrder A order denseScale).map invertPermutation? with
      | .error e, _ => some (.error e)
      | .ok (), .error e => some (.error e)
      | .ok (), .ok none => some (.error .invalidPermutation)
      | .ok (), .ok (some _) => if readable then some (ofMatrix A order denseScale) else none

end AugLag.Factorization
