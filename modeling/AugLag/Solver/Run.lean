import AugLag.Solver.Info
import AugLag.Solver.Residuals
import AugLag.Solver.Step

/-! The iteration. One pass either ends the solve, or takes a Newton step, or updates multipliers and penalties. -/
namespace AugLag

/-- A row of the table of progress. -/
structure ProgressRow (T : Type) where
  iter : Nat
  iterOut : Nat
  objective : T
  primalResidual : T
  dualResidual : T
  maxPenalty : T
  rho : T

/-- What a solve tells while it runs. -/
inductive Signal (T : Type)
  | event (e : Event T)
  | progress (row : ProgressRow T)

/-- The state of the iteration. -/
structure Run (T : Type) (n m : Nat) where
  newton : NewtonState T n m
  point : Point T n m
  evaluation : Evaluation T n m
  residuals : Residuals T
  info : Info T
  /-- The tolerances of the present subproblem. -/
  epsAbsIn : T
  epsRelIn : T
  /-- Newton steps in the present subproblem. -/
  iterIn : Nat

namespace Run

variable {T : Type} [Scalar T] {n m : Nat}

def evaluate (r : Run T n m) (P : ScaledProgram T n m) : Run T n m :=
  { r with evaluation := Evaluation.ofPoint P r.point r.newton.penalty.sigma r.newton.penalty.rho }

/-- Brings the evaluation, the residuals and the reported norms up to date. -/
def measure (r : Run T n m) (P : ScaledProgram T n m) : Run T n m :=
  let r := r.evaluate P
  let residuals := Residuals.ofPoint P r.point r.evaluation
  { r with
    residuals
    info := { r.info with primalResidual := residuals.primal, dualResidual := residuals.dual } }

/-- The status that the present point justifies at the given tolerances. -/
def verdict (r : Run T n m) (P : ScaledProgram T n m) (epsAbs epsRel epsPrimal epsDual : T)
    (optimal infeasible unbounded : Status) : Option Status :=
  if r.residuals.isSolved epsAbs epsRel then some optimal
  else if P.isPrimalInfeasible r.evaluation.dy epsPrimal then some infeasible
  else if P.isDualInfeasible r.point.dx r.point.Qdx r.point.Adx epsDual then some unbounded
  else none

/-- The verdict at full accuracy. -/
def finished (r : Run T n m) (P : ScaledProgram T n m) (c : Settings T) : Option Status :=
  r.verdict P c.epsAbs c.epsRel c.epsPrimInf c.epsDualInf .solved .primalInfeasible .dualInfeasible

/-- The verdict at reduced accuracy, where a limit has ended the iteration. -/
def reduced (r : Run T n m) (P : ScaledProgram T n m) (c : Settings T) (status : Status) : Status :=
  if status.isLimit then
    (r.verdict P c.reducedEpsAbs c.reducedEpsRel c.reducedEpsPrimInf c.reducedEpsDualInf .solvedInaccurate
      .primalInfeasibleInaccurate .dualInfeasibleInaccurate).getD status
  else status

/-- Grows penalties if the primal residual is still too large. The first subproblem has nothing to compare with. -/
def growPenalties (r : Run T n m) (c : Settings T) : Penalty T m × List (Event T) :=
  let penalty := r.newton.penalty
  if 0 < r.info.iterOut && r.residuals.primalTolerance c.epsAbs c.epsRel < r.residuals.primal then
    let (penalty, changed) :=
      penalty.grow r.evaluation.violation.toArray r.point.previousViolation.toArray c
    (penalty, if changed.isEmpty then [] else [.penaltyIncreased changed.length])
  else (penalty, [])

def progressRow (r : Run T n m) : ProgressRow T where
  iter := r.info.iter
  iterOut := r.info.iterOut
  objective := r.info.objective
  primalResidual := r.info.primalResidual
  dualResidual := r.info.dualResidual
  maxPenalty := r.newton.penalty.sigma.foldl Scalar.max 0
  rho := r.newton.penalty.rho

/-- Ends a subproblem: updates multipliers, penalties, the proximal weight and the tolerances. `expired` tells
after which number of updates the time is over. -/
def outerStep (r : Run T n m) (P : ScaledProgram T n m) (c : Settings T) (expired : Nat → Bool) (solved : Bool) :
    Run T n m × Option Status × List (Signal T) :=
  let given : List (Event T) :=
    if solved then [] else [.subproblemUnsolved r.info.iterOut r.iterIn r.residuals.gradient]
  let (grown, events) := r.growPenalties c
  let (penalty, _) := grown.lowerProximal solved c
  let iterOut := r.info.iterOut + 1
  let r : Run T n m :=
    { r with
      newton := { r.newton with penalty }
      point := r.point.updateMultipliers r.evaluation
      epsAbsIn := Scalar.max (r.epsAbsIn * c.toleranceShrink) c.epsAbs
      epsRelIn := Scalar.max (r.epsRelIn * c.toleranceShrink) c.epsRel
      iterIn := 0
      info := { r.info with
        innerNonconvergence := r.info.innerNonconvergence + if solved then 0 else 1
        iterOut
        objective := P.objective r.point.x r.point.Qx / P.scaling.c } }
  let rows := if c.verbose && iterOut % Nat.max c.printInterval 1 == 0 then [.progress r.progressRow] else []
  let status :=
    if c.maxOuterIter ≤ iterOut then some .maxIterReached
    else if expired iterOut then some .timeLimitReached
    else none
  (r, status, (given ++ events).map .event ++ rows)

/-- Takes a Newton step on the present subproblem. -/
def innerStep (r : Run T n m) (P : ScaledProgram T n m) (c : Settings T) :
    Run T n m × Option Status × List (Signal T) :=
  match r.newton.step P r.point r.evaluation c with
  | (newton, .error e, log) =>
    ({ r with newton }, some .nonConvex, (log ++ [Event.notPositive e]).map .event)
  | (newton, .ok (τ, point), log) =>
    let zero : List (Event T) := if τ == 0 then [.zeroStep r.info.iter] else []
    ({ r with newton, point, iterIn := r.iterIn + 1, info := { r.info with iter := r.info.iter + 1 } }, none,
      (log ++ zero).map .event)

/-- One pass of the iteration. A status ends it. -/
def pass (r : Run T n m) (P : ScaledProgram T n m) (c : Settings T) (expired : Nat → Bool) :
    Run T n m × Option Status × List (Signal T) :=
  let r := r.measure P
  match r.finished P c with
  | some status => (r, some status, [])
  | none =>
    if c.maxIter ≤ r.info.iter then (r, some .maxIterReached, [])
    else
      let solved := r.residuals.isStationary r.epsAbsIn r.epsRelIn
      if solved || c.innerMaxIter ≤ r.iterIn then r.outerStep P c expired solved else r.innerStep P c

/-- Passes until one of them ends the iteration, and at most `passes` of them. -/
def iterate (P : ScaledProgram T n m) (c : Settings T) (expired : Nat → Bool) :
    Nat → Run T n m → Run T n m × Status × List (Signal T)
  | 0, r => (r, .maxIterReached, [])
  | passes + 1, r =>
    match r.pass P c expired with
    | (r, some status, signals) => (r, status, signals)
    | (r, none, signals) =>
      let (r, status, more) := iterate P c expired passes r
      (r, status, signals ++ more)

/-- The number of passes that the limits of the settings allow. -/
def passLimit (c : Settings T) : Nat := c.maxIter + c.maxOuterIter

/-- The whole iteration. A convex problem is factored first, because a stationary point solves it only if it is
convex indeed. -/
def complete (r : Run T n m) (P : ScaledProgram T n m) (c : Settings T) (expired : Nat → Bool) :
    Run T n m × Status × List (Signal T) :=
  if c.nonconvex then iterate P c expired (passLimit c) r
  else
    let r := r.evaluate P
    match r.newton.factorInitial P r.evaluation.active c with
    | (newton, .error e, log) => ({ r with newton }, .nonConvex, (log ++ [Event.startNotPositive e]).map .event)
    | (newton, .ok (), log) =>
      let (r, status, signals) := iterate P c expired (passLimit c) { r with newton }
      (r, status, log.map .event ++ signals)

end Run
end AugLag
