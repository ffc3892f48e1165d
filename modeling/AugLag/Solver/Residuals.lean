import AugLag.Solver.Point

/-! Residual norms in the units of the problem, and the tests for the end of a solve. -/
namespace AugLag

structure Residuals (T : Type) where
  /-- The norm of `A x - z`. -/
  primal : T
  /-- The norm of `Q x + q + Aᵀ ŷ`. -/
  dual : T
  /-- The norm of the gradient of the subproblem. -/
  gradient : T
  normAx : T
  normZ : T
  normQx : T
  normForce : T
  normCost : T

variable {T : Type} [Scalar T] {n m : Nat}

namespace Residuals

def zero : Residuals T where
  primal := 0
  dual := 0
  gradient := 0
  normAx := 0
  normZ := 0
  normQx := 0
  normForce := 0
  normCost := 0

def ofPoint (P : ScaledProgram T n m) (p : Point T n m) (e : Evaluation T n m) : Residuals T :=
  let s := P.scaling
  let cinv := Scalar.recip s.c
  { primal := Vec.normInfScaled e.violation s.einv
    normAx := Vec.normInfScaled p.Ax s.einv
    normZ := Vec.normInfScaled e.z s.einv
    dual := Vec.normInfScaled e.stationarity s.dinv * cinv
    gradient := Vec.normInfScaled e.gradient s.dinv * cinv
    normQx := Vec.normInfScaled p.Qx s.dinv * cinv
    normForce := Vec.normInfScaled e.force s.dinv * cinv
    normCost := Vec.normInfScaled P.q s.dinv * cinv }

/-- The tolerance on the primal residual. -/
def primalTolerance (r : Residuals T) (epsAbs epsRel : T) : T :=
  epsAbs + epsRel * Scalar.max r.normAx r.normZ

/-- The tolerance on the dual residual. -/
def dualTolerance (r : Residuals T) (epsAbs epsRel : T) : T :=
  epsAbs + epsRel * Scalar.max (Scalar.max r.normQx r.normForce) r.normCost

def isSolved (r : Residuals T) (epsAbs epsRel : T) : Bool :=
  r.primal ≤ r.primalTolerance epsAbs epsRel && r.dual ≤ r.dualTolerance epsAbs epsRel

/-- The subproblem is solved. -/
def isStationary (r : Residuals T) (epsAbs epsRel : T) : Bool :=
  r.gradient ≤ r.dualTolerance epsAbs epsRel

end Residuals

namespace ScaledProgram

/-- A multiplier does not push against an absent bound by more than the tolerance. -/
def pushesOnlyFinite (P : ScaledProgram T n m) (dy : Vector T m) (tol : T) (i : Fin m) : Bool :=
  if 0 < dy.get i then P.upperFinite.get i || !(tol < P.scaling.e.get i * dy.get i)
  else if dy.get i < 0 then P.lowerFinite.get i || !(tol < -P.scaling.e.get i * dy.get i)
  else true

/-- The sum of `bmax dy` over positive and of `bmin dy` over negative `dy`, on finite bounds. -/
def support (P : ScaledProgram T n m) (dy : Vector T m) : T :=
  (List.finRange m).foldl (fun acc (i : Fin m) =>
    if 0 < dy.get i then (if P.upperFinite.get i then acc + P.bmax.get i * dy.get i else acc)
    else if dy.get i < 0 then (if P.lowerFinite.get i then acc + P.bmin.get i * dy.get i else acc)
    else acc) 0

/-- The change `dy` of the multipliers shows that no point is feasible: `Aᵀ dy` vanishes and the bounds are
separated along it, both up to a tolerance. -/
def isPrimalInfeasible (P : ScaledProgram T n m) (dy : Vector T m) (eps : T) : Bool :=
  let norm := Vec.normInfScaled dy P.scaling.e
  let tol := eps * norm
  let force := P.A.adjointMulAdd (Vec.zeros n) dy 1 0
  !(norm == 0) && Scalar.isFinite norm && !(tol < Vec.normInfScaled force P.scaling.dinv) &&
    (List.finRange m).all (P.pushesOnlyFinite dy tol) && P.support dy ≤ -tol

/-- The step `dx` shows that the cost is not bounded from below: `Q dx` vanishes, the linear cost falls, and the
bounds allow the direction, all up to a tolerance. -/
def isDualInfeasible (P : ScaledProgram T n m) (dx Qdx : Vector T n) (Adx : Vector T m) (eps : T) : Bool :=
  let norm := Vec.normInfScaled dx P.scaling.d
  let tol := eps * norm
  let cinv := Scalar.recip P.scaling.c
  let allowed (i : Fin m) : Bool :=
    let v := Adx.get i * P.scaling.einv.get i
    (!P.lowerFinite.get i || -tol ≤ v) && (!P.upperFinite.get i || v ≤ tol)
  !(norm == 0) && Scalar.isFinite norm && !(tol < Vec.normInfScaled Qdx P.scaling.dinv * cinv) &&
    !(-tol < Vec.dot P.q dx * cinv) && (List.finRange m).all allowed

end ScaledProgram
end AugLag
