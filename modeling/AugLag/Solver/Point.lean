import AugLag.Problem.Program
import AugLag.Sparse.Product

/-! Points of the iteration, and the quantities that follow from a point. With multipliers `y`, penalties `σ` and
proximal center `x₀`,
`z = proj (A x + y / σ)`, `ŷ = y + σ (A x - z)`, `∇φ = Q x + q + Aᵀ ŷ + ρ (x - x₀)`. -/
namespace AugLag

/-- A point in scaled space with the products that are carried along. -/
structure Point (T : Type) (n m : Nat) where
  x : Vector T n
  /-- The proximal center. -/
  center : Vector T n
  y : Vector T m
  Ax : Vector T m
  Qx : Vector T n
  /-- `A x - z` at the last multiplier update. -/
  previousViolation : Vector T m
  /-- The last step, and its products. -/
  dx : Vector T n
  Adx : Vector T m
  Qdx : Vector T n

/-- What follows from a point, the penalties and the proximal weight. -/
structure Evaluation (T : Type) (n m : Nat) where
  z : Vector T m
  /-- The rows in which `A x + y / σ` lies outside of the bounds. -/
  active : Vector Bool m
  /-- `A x - z`. -/
  violation : Vector T m
  /-- The next multipliers `ŷ`. -/
  multiplier : Vector T m
  /-- `ŷ - y`. -/
  dy : Vector T m
  /-- `Aᵀ ŷ`. -/
  force : Vector T n
  /-- `Q x + q + Aᵀ ŷ`. -/
  stationarity : Vector T n
  /-- `∇φ`. -/
  gradient : Vector T n

variable {T : Type} [Scalar T] {n m : Nat}

namespace Point

/-- The first point of a solve. -/
def start (P : ScaledProgram T n m) (x : Vector T n) (y : Vector T m) : Point T n m where
  x := x
  center := x
  y := y
  Ax := P.A.mulAdd (Vec.zeros m) x 1 0
  Qx := P.Q.symMulAdd (Vec.zeros n) x 1 0
  previousViolation := Vec.fill m Scalar.infinity
  dx := Vec.zeros n
  Adx := Vec.zeros m
  Qdx := Vec.zeros n

/-- Moves the point by `τ d`, whose products are known. -/
def step (p : Point T n m) (τ : T) (d : Vector T n) (Ad : Vector T m) (Qd : Vector T n) : Point T n m :=
  let dx := Vec.combine τ d 0 d
  let Adx := Vec.combine τ Ad 0 Ad
  let Qdx := Vec.combine τ Qd 0 Qd
  { p with
    dx, Adx, Qdx
    x := Vec.combine 1 dx 1 p.x
    Ax := Vec.combine 1 Adx 1 p.Ax
    Qx := Vec.combine 1 Qdx 1 p.Qx }

/-- Takes over the next multipliers, and centers the proximal term at the point. -/
def updateMultipliers (p : Point T n m) (e : Evaluation T n m) : Point T n m :=
  { p with center := p.x, previousViolation := e.violation, y := e.multiplier }

end Point

namespace Evaluation

/-- What stands in the place of an evaluation before the first run. -/
def zero (n m : Nat) : Evaluation T n m where
  z := Vec.zeros m
  active := Vector.replicate m false
  violation := Vec.zeros m
  multiplier := Vec.zeros m
  dy := Vec.zeros m
  force := Vec.zeros n
  stationarity := Vec.zeros n
  gradient := Vec.zeros n

/-- The gradient of the subproblem for a proximal weight. -/
def gradientAt (stationarity : Vector T n) (p : Point T n m) (rho : T) : Vector T n :=
  Vector.ofFn fun i => stationarity.get i + rho * (p.x.get i - p.center.get i)

/-- `A x + y / σ`. -/
def shifted (p : Point T n m) (sigma : Vector T m) : Vector T m :=
  Vector.ofFn fun i => p.Ax.get i + p.y.get i / sigma.get i

def ofPoint (P : ScaledProgram T n m) (p : Point T n m) (sigma : Vector T m) (rho : T) : Evaluation T n m :=
  let w := shifted p sigma
  let z : Vector T m := Vector.ofFn fun i => Scalar.clamp (w.get i) (P.bmin.get i) (P.bmax.get i)
  let violation : Vector T m := Vector.zipWith (· - ·) p.Ax z
  let multiplier : Vector T m := Vector.ofFn fun i => p.y.get i + sigma.get i * violation.get i
  let force := P.A.adjointMulAdd (Vec.zeros n) multiplier 1 0
  let stationarity : Vector T n := Vector.ofFn fun i => p.Qx.get i + P.q.get i + force.get i
  { z
    active := Vector.ofFn fun i => w.get i < P.bmin.get i || P.bmax.get i < w.get i
    violation
    multiplier
    dy := Vector.zipWith (· - ·) multiplier p.y
    force
    stationarity
    gradient := gradientAt stationarity p rho }

end Evaluation
end AugLag
