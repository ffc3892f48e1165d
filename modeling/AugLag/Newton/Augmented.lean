import AugLag.Factor.Solve
import AugLag.Newton.Error
import AugLag.Sparse.Transpose

/-! The Newton system in augmented form,
`[Q + ρ I, Aᵀ; A, -Σ⁻¹]` over all rows of `A`, where a row outside of the active set holds zeros and `-1` on the
diagonal. Every change of the active set, the penalties or the weight is followed by a new factorization. -/
namespace AugLag

structure AugmentedSystem (T : Type) (n m : Nat) where
  /-- The upper triangle of the system. The diagonal is the last entry of each column. -/
  matrix : SparseMatrix T
  /-- The slot of the system that holds each slot of `Q`. -/
  slotOfCost : Array Nat
  /-- The slot of the system that holds each slot of `A`. -/
  slotOfRow : Array Nat
  rows : SparseMatrix.RowIndex
  factors : Factorization T
  /-- The diagonal of `Q` that the system holds. -/
  costDiag : Array T
  active : Vector Bool m
  sigma : Vector T m
  rho : T
  /-- The factors belong to the state recorded here. -/
  factored : Bool

namespace AugmentedSystem

variable {T : Type} [Scalar T] {n m : Nat}

def diagonalSlot (K : SparseMatrix T) (j : Nat) : Nat := K.stop j - 1

/-- The rows of column `j` of the upper triangle of `Q + I`. -/
def costColumn (Q : SparseMatrix T) (j : Nat) : List Nat :=
  let stored := (Q.slots j).map Q.rowAt
  if stored.getLast? = some j then stored else stored ++ [j]

/-- The upper triangle of the pattern of the system. All values are zero. -/
def pattern (Q A : SparseMatrix T) (rows : SparseMatrix.RowIndex) : SparseMatrix T :=
  let columnOf := A.columnOfSlot
  let cost := (List.range A.cols).map (costColumn Q)
  let constraints := (List.range A.rows).map fun r =>
    (rows.row r).map (columnOf.getD · 0) ++ [A.cols + r]
  SparseMatrix.ofColumns (A.cols + A.rows) ((cost ++ constraints).map fun column => column.map fun i => (i, 0))

/-- Assigns the slots of `K` from column `j` on to the slots in the list. -/
def assignSlots (K : SparseMatrix T) (j : Nat) (slots : List Nat) (target : Array Nat) : Array Nat :=
  (slots.zip (List.range slots.length)).foldl (fun t e => t.setIfInBounds e.1 (K.first j + e.2)) target

/-- The system before its first update, with factors of the matrix that has `1` and `-1` on its diagonal. -/
def ofProblem [Elimination.Rule] (Q A : SparseMatrix T) (n m : Nat) : Except NewtonError (AugmentedSystem T n m) := do
  let rows := A.rowIndex
  let K := pattern Q A rows
  let slotOfCost := (List.range A.cols).foldl (fun t j => assignSlots K j (Q.slots j) t) (Array.replicate Q.nnz 0)
  let slotOfRow := (List.range A.rows).foldl (fun t r => assignSlots K (A.cols + r) (rows.row r) t)
    (Array.replicate A.nnz 0)
  let unit (v : Array T) (j : Nat) : Array T :=
    v.setIfInBounds (diagonalSlot K j) (if j < A.cols then 1 else -1)
  let K := { K with values := (List.range K.cols).foldl unit K.values }
  match Factorization.ofMatrix K none 1.0 with
  | .error e => .error (.factor e)
  | .ok factors =>
    .ok
      { matrix := K
        slotOfCost
        slotOfRow
        rows
        factors
        costDiag := Array.replicate A.cols 0
        active := Vector.replicate m false
        sigma := Vec.zeros m
        rho := 0
        factored := false }

/-- The slots of row `r`, with its diagonal at the end. -/
def rowSlots (S : AugmentedSystem T n m) (r : Nat) : List Nat :=
  (S.rows.row r).map (S.slotOfRow.getD · 0) ++ [diagonalSlot S.matrix (n + r)]

/-- Writes row `r` of the system into its values. -/
def writeRow (S : AugmentedSystem T n m) (A : SparseMatrix T) (active : Vector Bool m) (sigma : Vector T m)
    (values : Array T) (r : Fin m) : Array T :=
  let values := (S.rows.row r).foldl
    (fun v k => v.setIfInBounds (S.slotOfRow.getD k 0) (if active.get r then A.valueAt k else 0)) values
  values.setIfInBounds (diagonalSlot S.matrix (n + r)) (if active.get r then -Scalar.recip (sigma.get r) else -1)

/-- The values of the cost block without the proximal weight. -/
def writeCost (S : AugmentedSystem T n m) (Q : SparseMatrix T) : Array T :=
  let values := (List.range n).foldl (fun v j => v.setIfInBounds (diagonalSlot S.matrix j) 0) S.matrix.values
  (S.slotOfCost.toList.zip Q.values.toList).foldl (fun v e => v.setIfInBounds e.1 e.2) values

/-- All values of the system for a state, and the diagonal of `Q`. -/
def assemble (S : AugmentedSystem T n m) (Q A : SparseMatrix T) (active : Vector Bool m) (sigma : Vector T m)
    (rho : T) : Array T × Array T :=
  let cost := S.writeCost Q
  let costDiag := (Array.range n).map fun j => cost.getD (diagonalSlot S.matrix j) 0
  let values := (List.range n).foldl (fun v j => v.modify (diagonalSlot S.matrix j) (· + rho)) cost
  ((List.finRange m).foldl (S.writeRow A active sigma) values, costDiag)

/-- The row is written differently in the new state. -/
def rowChanged (S : AugmentedSystem T n m) (active : Vector Bool m) (sigma : Vector T m) (r : Fin m) : Bool :=
  active.get r != S.active.get r || (active.get r && !(sigma.get r == S.sigma.get r))

/-- The values of the system for a new state, made from those of the recorded state, and the slots that changed. -/
def reassemble (S : AugmentedSystem T n m) (A : SparseMatrix T) (active : Vector Bool m) (sigma : Vector T m)
    (rho : T) : Array T × List Nat :=
  let diagonal := if rho == S.rho then [] else List.range n
  let values := diagonal.foldl
    (fun v j => v.setIfInBounds (diagonalSlot S.matrix j) (S.costDiag.getD j 0 + rho)) S.matrix.values
  let changed := (List.finRange m).filter (S.rowChanged active sigma)
  (changed.foldl (S.writeRow A active sigma) values,
    diagonal.map (diagonalSlot S.matrix) ++ changed.flatMap fun (r : Fin m) => S.rowSlots r)

/-- Factors the system after a change of the given slots. The block of the variables must be positive definite. -/
def factorChanged (S : AugmentedSystem T n m) (slots : List Nat) :
    AugmentedSystem T n m × Except NewtonError Unit :=
  let stored := S.factors.updateValues slots (slots.map S.matrix.valueAt)
  let (factors, outcome) := stored.refactor
  let outcome : Except NewtonError Unit :=
    match outcome with
    | .ok () => if factors.positive = n then .ok () else .error .notPositiveDefinite
    | .error e => .error (.factor e)
  ({ S with factors, factored := outcome.toBool }, outcome)

/-- Brings the factors in line with an active set, penalties and a proximal weight. -/
def update (S : AugmentedSystem T n m) (Q A : SparseMatrix T) (active : Vector Bool m) (sigma : Vector T m)
    (rho : T) : AugmentedSystem T n m × Except NewtonError Unit :=
  if S.factored then
    let (values, slots) := S.reassemble A active sigma rho
    if slots.isEmpty then (S, .ok ())
    else factorChanged { S with matrix := { S.matrix with values }, active, sigma, rho } slots
  else
    let (values, costDiag) := S.assemble Q A active sigma rho
    factorChanged { S with matrix := { S.matrix with values }, costDiag, active, sigma, rho }
      (List.range S.matrix.nnz)

/-- The direction `d` of the Newton step with the given right hand side. -/
def solve (S : AugmentedSystem T n m) (rhs : Vector T n) : Vector T n :=
  Vec.read n (S.factors.solve (rhs.toArray ++ Array.replicate m 0))

def invalidate (S : AugmentedSystem T n m) : AugmentedSystem T n m := { S with factored := false }

end AugmentedSystem
end AugLag
