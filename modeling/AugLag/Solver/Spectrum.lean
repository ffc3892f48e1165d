import AugLag.Sparse.Product
import AugLag.Vec.Norm

/-! An estimate of the smallest eigenvalue of a symmetric matrix, by power iteration on `c I - Q` where `c` bounds
the eigenvalues from above. -/
namespace AugLag

variable {T : Type} [Scalar T]

/-- The largest sum of a diagonal entry and the magnitudes of the other entries of its row. -/
def gershgorinBound (Q : SparseMatrix T) (n : Nat) : T :=
  let addEntry (j : Nat) (bound : Vector T n) (e : Nat × T) : Vector T n :=
    if e.1 = j then Vec.update bound j (· + e.2)
    else Vec.update (Vec.update bound e.1 (· + Scalar.abs e.2)) j (· + Scalar.abs e.2)
  Vec.maximum ((List.range n).foldl (fun bound j => (Q.column j).foldl (addEntry j) bound) (Vec.zeros n))

/-- A fixed start vector of unit norm. -/
def powerStart (n : Nat) : Vector T n :=
  let v : Vector T n := Vector.ofFn fun i => 1 + Scalar.ratio i n
  Vec.scale v (Scalar.recip (Vec.norm v))

/-- The relative change of the estimate at which the iteration ends. -/
def powerTolerance : T := 1e-8

/-- The largest number of iterations. -/
def powerLimit : Nat := 100

/-- At most `steps` iterations from the vector `v` and the estimate `mu`. -/
def powerIterate {n : Nat} (Q : SparseMatrix T) (c : T) : Nat → Vector T n → T → T
  | 0, _, mu => mu
  | steps + 1, v, mu =>
    let w := Q.symMulAdd v v (-1) c
    let next := Vec.dot v w
    let norm := Vec.norm w
    if norm == 0 || Scalar.abs (next - mu) ≤ powerTolerance * Scalar.abs next then next
    else powerIterate Q c steps (w.map (· / norm)) next

/-- The estimate of the smallest eigenvalue. -/
def minEigenvalue (Q : SparseMatrix T) (n : Nat) : T :=
  if n = 0 then 0
  else
    let c := gershgorinBound Q n
    c - powerIterate Q c powerLimit (powerStart n) 0

end AugLag
