import AugLag.Log
import AugLag.Newton.Engine
import AugLag.Penalty
import AugLag.Solver.LineSearch
import AugLag.Solver.Point

/-! Newton steps on the augmented Lagrangian. A system that cannot be factored is tried again with a larger
proximal weight. -/
namespace AugLag

variable {T : Type} [Scalar T] {n m : Nat}

/-- What the factorization of a Newton system changes. -/
structure NewtonState (T : Type) (n m : Nat) where
  engine : NewtonEngine T n m
  penalty : Penalty T m

namespace NewtonState

/-- Brings the engine in line with the active set and the penalties. -/
def update (s : NewtonState T n m) (P : ScaledProgram T n m) (active : Vector Bool m) (c : Settings T) :
    NewtonState T n m × Except NewtonError Unit × List (Event T) :=
  let (engine, outcome, log) := s.engine.update P.Q P.A active s.penalty.sigma s.penalty.rho c
  ({ s with engine }, outcome, log)

/-- Updates the engine, and after a failure raises the proximal weight and tries again, at most `tries` more
times. Also returns the number of failures. -/
def factorWithRetries (P : ScaledProgram T n m) (active : Vector Bool m) (c : Settings T) :
    Nat → Nat → NewtonState T n m → NewtonState T n m × Except NewtonError Nat × List (Event T)
  | tries, failures, s =>
    let (s, outcome, log) := s.update P active c
    match outcome, tries with
    | .ok (), _ => (s, .ok failures, log)
    | .error e, 0 => (s, .error e, log ++ [.factorizationGivenUp failures e])
    | .error e, tries + 1 =>
      let penalty := s.penalty.regularize c
      let (s, outcome, more) := factorWithRetries P active c tries (failures + 1) { s with penalty }
      (s, outcome, log ++ [.factorizationRetried e penalty.rho] ++ more)

/-- Factors the Newton system of an active set. A raised proximal weight is kept from then on. Tells whether the
weight was raised. -/
def factor (s : NewtonState T n m) (P : ScaledProgram T n m) (active : Vector Bool m) (c : Settings T) :
    NewtonState T n m × Except NewtonError Bool × List (Event T) :=
  let (s, outcome, log) := factorWithRetries P active c c.maxFactorizationRetries 0 s
  match outcome with
  | .ok 0 => (s, .ok false, log)
  | .ok (_ + 1) => ({ s with penalty := s.penalty.commit }, .ok true, log)
  | .error e => (s, .error e, log)

/-- Factors the first system of a convex problem. Negative curvature at a positive weight shows that the problem
is not convex and is not regularized; a singular system is. -/
def factorInitial (s : NewtonState T n m) (P : ScaledProgram T n m) (active : Vector Bool m) (c : Settings T) :
    NewtonState T n m × Except NewtonError Unit × List (Event T) :=
  let (s, outcome, log) := s.update P active c
  let retry : NewtonState T n m × Except NewtonError Unit × List (Event T) :=
    let (s, outcome, more) := s.factor P active c
    (s, outcome.map fun _ => (), log ++ more)
  match outcome with
  | .ok () => (s, .ok (), log)
  | .error .notPositiveDefinite => if 0 < s.penalty.rho then (s, .error .notPositiveDefinite, log) else retry
  | .error (.factor _) => retry

/-- A number that is not finite is replaced by zero. -/
def finiteOrZero (x : T) : T := if Scalar.isFinite x then x else 0

/-- The augmented Lagrangian along a direction `d`. -/
def lineSearch (s : NewtonState T n m) (P : ScaledProgram T n m) (p : Point T n m) (d : Vector T n) (Ad : Vector T m)
    (Qd : Vector T n) : LineSearch T m :=
  let rho := s.penalty.rho
  let beta := (List.finRange n).foldl (fun acc (i : Fin n) =>
    acc + d.get i * (p.Qx.get i + P.q.get i + rho * (p.x.get i - p.center.get i))) 0
  { eta := finiteOrZero (Vec.dot d Qd + rho * Vec.sumSq d)
    beta := finiteOrZero beta
    Ax := p.Ax
    Ad
    y := p.y
    sigma := s.penalty.sigma
    bmin := P.bmin
    bmax := P.bmax
    lowerFinite := P.lowerFinite
    upperFinite := P.upperFinite }

/-- One Newton step with line search. Returns the length of the step and the point reached. -/
def step (s : NewtonState T n m) (P : ScaledProgram T n m) (p : Point T n m) (e : Evaluation T n m)
    (c : Settings T) : NewtonState T n m × Except NewtonError (T × Point T n m) × List (Event T) :=
  match s.factor P e.active c with
  | (s, .error err, log) => (s, .error err, log)
  | (s, .ok raised, log) =>
    let gradient := if raised then Evaluation.gradientAt e.stationarity p s.penalty.rho else e.gradient
    let d := s.engine.solve (Vec.neg gradient)
    let Ad := P.A.mulAdd (Vec.zeros m) d 1 0
    let Qd := P.Q.symMulAdd (Vec.zeros n) d 1 0
    match (s.lineSearch P p d Ad Qd).search? c with
    | some τ => (s, .ok (τ, p.step τ d Ad Qd), log)
    | none => (s, .ok (0, p.step 0 d Ad Qd), log ++ [.noDecrease])

end NewtonState
end AugLag
