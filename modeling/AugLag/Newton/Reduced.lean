import AugLag.Factor.Solve
import AugLag.Factor.RankOne
import AugLag.Insertion
import AugLag.Log
import AugLag.Newton.Error
import AugLag.Settings.Basic
import AugLag.Sparse.Build
import AugLag.Sparse.Search
import AugLag.Sparse.Transpose

/-! The Newton system in reduced form, `H = Q + ρ I + Aᵀ Σ A` over the active rows of `A`. Its pattern has room for
all rows, so that few changes can be followed by modifying the factors. -/
namespace AugLag

structure ReducedSystem (T : Type) (n m : Nat) where
  /-- The upper triangle of `H`. -/
  matrix : SparseMatrix T
  /-- The slot of `H` that holds each slot of `Q`. -/
  slotOfCost : Array Nat
  diagonal : Array Nat
  /-- For each row of `A` the slots of the products of its entries, pair by pair. -/
  slotsOfPairs : Array (List Nat)
  rows : SparseMatrix.RowIndex
  columnOf : Array Nat
  factors : Factorization T
  active : Vector Bool m
  sigma : Vector T m
  rho : T
  /-- The factors belong to the state recorded here. -/
  factored : Bool
  /-- The number of modifications since the last full factorization. -/
  modified : Nat

namespace ReducedSystem

/-- All pairs of an element and one that does not come before it. -/
def orderedPairs {α : Type} : List α → List (α × α)
  | [] => []
  | a :: rest => (a :: rest).map (a, ·) ++ orderedPairs rest

/-- The number of ordered pairs of `k` elements. -/
def triangular (k : Nat) : Nat := k * (k + 1) / 2

/-- A row of which the part in the factors changes, and the change of its penalty. -/
structure Change (T : Type) where
  row : Nat
  weight : T

variable {T : Type} [Scalar T] {n m : Nat}

/-- The entries above and on the diagonal that the rows of `A` contribute to `AᵀA`. -/
def fillEstimate (A : SparseMatrix T) : Nat :=
  let counts := A.rowIdx.foldl (fun c r => c.modify r (· + 1)) (Array.replicate A.rows 0)
  counts.foldl (fun fill k => fill + triangular k) 0

/-- The change of row `r` from one state to another, if there is one. -/
def rowChange (oldActive : Vector Bool m) (oldSigma : Vector T m) (active : Vector Bool m) (sigma : Vector T m)
    (r : Fin m) : Option (Change T) :=
  match oldActive.get r, active.get r with
  | false, true => some { row := r, weight := sigma.get r }
  | true, false => some { row := r, weight := -oldSigma.get r }
  | true, true =>
    if sigma.get r == oldSigma.get r then none else some { row := r, weight := sigma.get r - oldSigma.get r }
  | false, false => none

/-- The changes from one state to another by decreasing weight, so that additions come before removals. -/
def changes (oldActive : Vector Bool m) (oldSigma : Vector T m) (active : Vector Bool m) (sigma : Vector T m) :
    List (Change T) :=
  insertionSort (fun a b => b.weight < a.weight)
    ((List.finRange m).filterMap (rowChange oldActive oldSigma active sigma))

/-- The coordinates of the products of row `r` of `A`. -/
def pairPlaces (rows : SparseMatrix.RowIndex) (columnOf : Array Nat) (r : Nat) : List (Nat × Nat) :=
  (orderedPairs (rows.row r)).map fun p => (columnOf.getD p.1 0, columnOf.getD p.2 0)

/-- The upper triangle of the pattern of `Q + I + AᵀA`. All values are zero. -/
def pattern (Q A : SparseMatrix T) (rows : SparseMatrix.RowIndex) (columnOf : Array Nat) : SparseMatrix T :=
  let cost := (List.range A.cols).flatMap fun j => (Q.slots j).map (fun k => (Q.rowAt k, j)) ++ [(j, j)]
  let constraints := (List.range A.rows).flatMap (pairPlaces rows columnOf)
  SparseMatrix.sumTriplets A.cols A.cols
    ((cost ++ constraints).map fun p => { row := p.1, col := p.2, value := 0 })

/-- The slot of a place of the pattern, and the first slot if the place is not there. -/
def slotAt (H : SparseMatrix T) (p : Nat × Nat) : Nat := (H.findSlot p.1 p.2).getD 0

/-- The system before its first update, with factors of the identity. -/
def ofProblem [Elimination.Rule] (Q A : SparseMatrix T) (n m : Nat) : Except NewtonError (ReducedSystem T n m) :=
  let rows := A.rowIndex
  let columnOf := A.columnOfSlot
  let H := pattern Q A rows columnOf
  let slotOfCost := (List.range A.cols).flatMap fun j => (Q.slots j).map fun k => slotAt H (Q.rowAt k, j)
  let diagonal := (Array.range A.cols).map fun j => slotAt H (j, j)
  let H := { H with values := diagonal.foldl (fun v p => v.setIfInBounds p 1) H.values }
  match Factorization.ofMatrix H none 1.0 with
  | .error e => .error (.factor e)
  | .ok factors =>
    .ok
      { matrix := H
        slotOfCost := slotOfCost.toArray
        diagonal
        slotsOfPairs := (Array.range A.rows).map fun r => (pairPlaces rows columnOf r).map (slotAt H)
        rows
        columnOf
        factors
        active := Vector.replicate m false
        sigma := Vec.zeros m
        rho := 0
        factored := false
        modified := 0 }

/-- Adds the products of the entries of row `r`, times its penalty. -/
def addRow (S : ReducedSystem T n m) (A : SparseMatrix T) (sigma : Vector T m) (values : Array T) (r : Fin m) :
    Array T :=
  ((S.slotsOfPairs.getD r []).zip (orderedPairs (S.rows.row r))).foldl
    (fun v e => v.modify e.1 (· + sigma.get r * A.valueAt e.2.1 * A.valueAt e.2.2)) values

/-- All values of `H` for a state. -/
def assemble (S : ReducedSystem T n m) (Q A : SparseMatrix T) (active : Vector Bool m) (sigma : Vector T m)
    (rho : T) : Array T :=
  let zero := S.matrix.values.map fun _ => (0 : T)
  let cost := (S.slotOfCost.toList.zip Q.values.toList).foldl (fun v e => v.modify e.1 (· + e.2)) zero
  let shifted := S.diagonal.foldl (fun v p => v.modify p (· + rho)) cost
  ((List.finRange m).filter fun r => active.get r).foldl (S.addRow A sigma) shifted

/-- The factors are those of a positive definite matrix. -/
def checkInertia (S : ReducedSystem T n m) : Except NewtonError Unit :=
  if S.factors.positive = n then .ok () else .error .notPositiveDefinite

/-- Assembles and factors `H` from scratch. -/
def refactor (S : ReducedSystem T n m) (Q A : SparseMatrix T) (active : Vector Bool m) (sigma : Vector T m)
    (rho : T) : ReducedSystem T n m × Except NewtonError Unit :=
  let values := S.assemble Q A active sigma rho
  let stored := S.factors.updateValues (List.range S.matrix.nnz) values.toList
  let (factors, outcome) := stored.refactor
  let S := { S with
    matrix := { S.matrix with values }, factors, active, sigma, rho, factored := false, modified := 0 }
  match outcome with
  | .error e => (S, .error (.factor e))
  | .ok () =>
    match S.checkInertia with
    | .error e => (S, .error e)
    | .ok () => ({ S with factored := true }, .ok ())

/-- Row `r` of `A` as entries of a sparse vector. -/
def rowEntries (S : ReducedSystem T n m) (A : SparseMatrix T) (r : Nat) : List (Nat × T) :=
  (S.rows.row r).map fun k => (S.columnOf.getD k 0, A.valueAt k)

/-- Modifies the factors by the changes, one after the other. -/
def modify (S : ReducedSystem T n m) (A : SparseMatrix T) :
    List (Change T) → ReducedSystem T n m × Except NewtonError Unit
  | [] => (S, S.checkInertia)
  | c :: rest =>
    match S.factors.rankOne (S.rowEntries A c.row) c.weight with
    | (factors, .ok ()) => modify { S with factors } A rest
    | (factors, .error e) => ({ S with factors }, .error (.factor e))

/-- So many changes that a factorization from scratch is preferred. -/
def tooMany (S : ReducedSystem T n m) (c : Settings T) (count : Nat) : Bool :=
  decide (c.maxRankUpdate < count) ||
    decide (c.maxRankUpdateFraction * Scalar.ofNat (n + m) < Scalar.ofNat count) ||
    decide (c.resetNewtonIter ≤ S.modified + count)

/-- Brings the factors in line with an active set, penalties and a proximal weight. -/
def update (S : ReducedSystem T n m) (Q A : SparseMatrix T) (active : Vector Bool m) (sigma : Vector T m)
    (rho : T) (c : Settings T) : ReducedSystem T n m × Except NewtonError Unit × List (Event T) :=
  let full (S : ReducedSystem T n m) (log : List (Event T)) :
      ReducedSystem T n m × Except NewtonError Unit × List (Event T) :=
    let (S, outcome) := S.refactor Q A active sigma rho
    (S, outcome, log)
  if !S.factored || !(rho == S.rho) then full S []
  else
    let todo := changes S.active S.sigma active sigma
    if todo.isEmpty then (S, .ok (), [])
    else if S.tooMany c todo.length then full S []
    else
      match S.modify A todo with
      | (S, .ok ()) => ({ S with active, sigma, modified := S.modified + todo.length }, .ok (), [])
      | (S, .error e) => full S [.lowRankFailed e]

def solve (S : ReducedSystem T n m) (rhs : Vector T n) : Vector T n :=
  Vec.read n (S.factors.solve rhs.toArray)

def invalidate (S : ReducedSystem T n m) : ReducedSystem T n m := { S with factored := false }

end ReducedSystem
end AugLag
