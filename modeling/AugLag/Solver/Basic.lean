import AugLag.Problem.Equilibrate
import AugLag.Solver.Run
import AugLag.Solver.Spectrum

/-! A solver: a scaled program with settings, factors and a starting point. It can be run any number of times. -/
namespace AugLag

structure Solver (T : Type) (n m : Nat) where
  program : ScaledProgram T n m
  settings : Settings T
  engine : NewtonEngine T n m
  /-- The scaled starting point. -/
  xStart : Vector T n
  yStart : Vector T m
  /-- An estimate of the smallest eigenvalue of the scaled cost, for problems that may be nonconvex. -/
  lambdaMin : Option T
  /-- What the last run has left. The next one starts with it in place. -/
  evaluation : Evaluation T n m

/-- How a run of the solver ended. -/
structure Outcome (T : Type) (n m : Nat) where
  run : Run T n m
  /-- Final statistics. -/
  info : Info T
  signals : List (Signal T)

namespace Solver

variable {T : Type} [Scalar T] {n m : Nat}

/-- A solver that has not run yet. -/
def fresh [Elimination.Rule] (program : ScaledProgram T n m) (c : Settings T) (xStart : Vector T n)
    (yStart : Vector T m) (lambdaMin : Option T) : Except NewtonError (Solver T n m) :=
  (NewtonEngine.ofProblem program.Q program.A n m c.factorizationMethod).map fun engine =>
    { program, settings := c, engine, xStart, yStart, lambdaMin, evaluation := Evaluation.zero n m }

/-- Scales a program and prepares its Newton systems. -/
def ofProgram [Elimination.Rule] (P : QuadraticProgram T n m) (c : Settings T) : Except NewtonError (Solver T n m) :=
  let program := (ScaledProgram.ofProgram P).equilibrate c
  fresh program c (Vec.zeros n) (Vec.zeros m) (if c.nonconvex then some (minEigenvalue program.Q n) else none)

/-- The part by which the proximal weight exceeds the most negative eigenvalue. -/
def floorMargin : T := 1.1

/-- The least proximal weight. It outweighs negative curvature that is known of. -/
def rhoFloor (S : Solver T n m) : T :=
  match S.lambdaMin with
  | some lambda =>
    if lambda < 0 then Scalar.max S.settings.minProximal (floorMargin * -lambda) else S.settings.minProximal
  | none => S.settings.minProximal

/-- The state in which the iteration begins. -/
def start (S : Solver T n m) : Run T n m :=
  let c := S.settings
  let penalty := Penalty.initial m c S.rhoFloor
  { newton := { engine := S.engine.invalidate, penalty }
    point := Point.start S.program S.xStart S.yStart
    evaluation := S.evaluation
    residuals := Residuals.zero
    info := Info.blank
    epsAbsIn := Scalar.max c.epsAbsIn c.epsAbs
    epsRelIn := Scalar.max c.epsRelIn c.epsRel
    iterIn := 0 }

/-- The dual objective `-½ xᵀQx - bmaxᵀ ŷ₊ - bminᵀ ŷ₋` over finite bounds, in the units of the problem. -/
def dualObjective (P : ScaledProgram T n m) (r : Run T n m) : T :=
  let y := r.evaluation.multiplier
  let total := (List.finRange m).foldl (fun acc (i : Fin m) =>
    if 0 < y.get i && P.upperFinite.get i then acc - P.bmax.get i * y.get i
    else if y.get i < 0 && P.lowerFinite.get i then acc - P.bmin.get i * y.get i
    else acc) (-0.5 * Vec.dot r.point.x r.point.Qx)
  total / P.scaling.c

/-- The statistics of a run that ended with a status. Objectives belong to a solution. -/
def finalInfo (P : ScaledProgram T n m) (r : Run T n m) (status : Status) : Info T :=
  { r.info with
    status
    objective := if status.hasSolution then P.objective r.point.x r.point.Qx / P.scaling.c else Scalar.nan
    dualObjective := if status.hasSolution then dualObjective P r else Scalar.nan }

/-- Runs the solver from its starting point. -/
def run (S : Solver T n m) (expired : Nat → Bool) : Solver T n m × Outcome T n m :=
  let (r, status, signals) := S.start.complete S.program S.settings expired
  let status := r.reduced S.program S.settings status
  ({ S with engine := r.newton.engine, evaluation := r.evaluation }, { run := r, info := finalInfo S.program r status, signals })

end Solver

namespace Outcome

variable {T : Type} [Scalar T] {n m : Nat}

/-- A certificate of unit norm. -/
def normalized {k : Nat} (v : Vector T k) : Vector T k :=
  let norm := Vec.normInf v
  if 0 < norm then Vec.scale v (Scalar.recip norm) else v

/-- A vector if the condition holds, and NaN otherwise. -/
def orNaN {k : Nat} (condition : Bool) (v : Vector T k) : Array T :=
  if condition then v.toArray else Array.replicate k Scalar.nan

/-- The results in the units of the problem. -/
def results (o : Outcome T n m) (P : ScaledProgram T n m) : Results T :=
  let s := P.scaling
  let status := o.info.status
  { x := orNaN status.hasSolution (s.unscalePrimal o.run.point.x)
    y := orNaN status.hasSolution (s.unscaleDual o.run.evaluation.multiplier)
    primalCertificate :=
      orNaN status.isPrimalInfeasible (normalized (Vec.hadamard o.run.evaluation.dy s.e))
    dualCertificate := orNaN status.isDualInfeasible (normalized (Vec.hadamard o.run.point.dx s.d))
    info := o.info }

/-- Writes the results over older ones, which may be those of a problem of another size. -/
def writeResults (o : Outcome T n m) (P : ScaledProgram T n m) (old : Results T) : Results T :=
  (old.resize n m).overwrite (o.results P)

end Outcome
end AugLag
