import AugLag.Problem.Scaling
import AugLag.Sparse.Algebra
import AugLag.Vec.Norm

/-! Quadratic programs, `min ½ xᵀQx + qᵀx` subject to `bmin ≤ A x ≤ bmax`, and their scaled form. -/
namespace AugLag

structure QuadraticProgram (T : Type) (n m : Nat) where
  /-- The upper triangle of the quadratic cost. -/
  Q : SparseMatrix T
  q : Vector T n
  A : SparseMatrix T
  bmin : Vector T m
  bmax : Vector T m
  /-- The magnitude of absent bounds. -/
  limit : T

/-- A program in scaled space. Absent bounds are marked as such and keep the value of the limit. -/
structure ScaledProgram (T : Type) (n m : Nat) extends QuadraticProgram T n m where
  lowerFinite : Vector Bool m
  upperFinite : Vector Bool m
  scaling : Scaling T n m

namespace ScaledProgram

variable {T : Type} [Scalar T] {n m : Nat}

/-- A program in its own units. -/
def ofProgram (P : QuadraticProgram T n m) : ScaledProgram T n m :=
  { P with
    lowerFinite := P.bmin.map fun l => decide (-P.limit < l)
    upperFinite := P.bmax.map fun u => decide (u < P.limit)
    scaling := Scaling.identity n m }

/-- Replaces the linear cost by one in the units of the problem. -/
def setCost (P : ScaledProgram T n m) (q : Vector T n) : ScaledProgram T n m :=
  { P with q := Vec.scale (Vec.hadamard q P.scaling.d) P.scaling.c }

/-- Replaces the bounds by bounds in the units of the problem. A bound at the limit or beyond is absent. -/
def setBounds (P : ScaledProgram T n m) (bmin bmax : Vector T m) : ScaledProgram T n m :=
  let lower := Vec.clamp bmin (-P.limit) P.limit
  let upper := Vec.clamp bmax (-P.limit) P.limit
  { P with
    lowerFinite := lower.map fun l => decide (-P.limit < l)
    upperFinite := upper.map fun u => decide (u < P.limit)
    bmin := Vector.zipWith (fun l e => if -P.limit < l then l * e else -P.limit) lower P.scaling.e
    bmax := Vector.zipWith (fun u e => if u < P.limit then u * e else P.limit) upper P.scaling.e }

/-- A bound in the units of the problem, where an absent one stands as `absent`. -/
def unscaledBound (b : Vector T m) (finite : Vector Bool m) (einv : Vector T m) (absent : Vector T m) : Vector T m :=
  Vector.ofFn fun i => if finite.get i then b.get i * einv.get i else absent.get i

/-- The program in its own units. -/
def unscaled (P : ScaledProgram T n m) : QuadraticProgram T n m :=
  let s := P.scaling
  let cinv := Scalar.recip s.c
  { Q := (P.Q.scaleBoth s.dinv s.dinv).scale cinv
    q := Vec.scale (Vec.hadamard P.q s.dinv) cinv
    A := P.A.scaleBoth s.einv s.dinv
    bmin := unscaledBound P.bmin P.lowerFinite s.einv P.bmin
    bmax := unscaledBound P.bmax P.upperFinite s.einv P.bmax
    limit := P.limit }

/-- The cost `½ xᵀQx + qᵀx` in the units of the stored data. -/
def objective (P : ScaledProgram T n m) (x Qx : Vector T n) : T := Vec.dot x Qx * 0.5 + Vec.dot P.q x

end ScaledProgram
end AugLag
