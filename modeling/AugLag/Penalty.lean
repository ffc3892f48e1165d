import AugLag.Settings.Basic
import AugLag.Vec.Norm

/-! Penalties of the constraints and the weight of the proximal term. The weight never falls below a floor, which
rises when a factorization succeeds only with a larger weight. -/
namespace AugLag

structure Penalty (T : Type) (m : Nat) where
  sigma : Vector T m
  rho : T
  rhoFloor : T

namespace Penalty

variable {T : Type} [Scalar T] {m : Nat}

def zero (m : Nat) : Penalty T m := { sigma := Vec.zeros m, rho := 0, rhoFloor := 0 }

/-- The first penalties and the first weight, for a problem whose weight may not fall below `rhoFloor`. -/
def initial (m : Nat) (c : Settings T) (rhoFloor : T) : Penalty T m where
  sigma := Vec.fill m c.initialPenalty
  rho := if c.proximalEnable then Scalar.max c.initialProximal rhoFloor else rhoFloor
  rhoFloor := rhoFloor

/-- The violation `v` of a row did not shrink enough since it was `previous`. -/
def stalled (c : Settings T) (v previous : T) : Bool :=
  !(Scalar.abs v ≤ c.penaltyProgressRatio * Scalar.abs previous)

/-- The penalty of a stalled row. It grows with the share of the row in the largest violation. -/
def grown (c : Settings T) (scale v sigma : T) : T :=
  let factor := Scalar.max 1 (c.penaltyGrowth * Scalar.abs v / scale)
  Scalar.min c.maxPenalty (factor * sigma)

/-- Grows the penalty of row `i` if it is stalled, and adds `i` to the rows whose penalty changed. -/
def growRow (c : Settings T) (scale : T) (acc : Penalty T m × List Nat) (i : Nat) (v previous : T) :
    Penalty T m × List Nat :=
  let old := Vec.get acc.1.sigma i
  let new := grown c scale v old
  if stalled c v previous && !(new == old) then
    ({ acc.1 with sigma := Vec.update acc.1.sigma i fun _ => new }, acc.2 ++ [i])
  else acc

/-- The violation against which the violations of single rows are measured. -/
def violationScale (violation : Array T) : T :=
  Vec.normInf violation.toVector + 1e-6

/-- The rows with their violations, as far as both arrays reach. -/
def rowsWith (violation previous : Array T) : List (Nat × T × T) :=
  (List.range violation.size).zip (violation.toList.zip previous.toList)

/-- Grows the penalties of all stalled rows. Returns the rows whose penalty changed, in increasing order. -/
def grow (p : Penalty T m) (violation previous : Array T) (c : Settings T) : Penalty T m × List Nat :=
  (rowsWith violation previous).foldl
    (fun acc r => growRow c (violationScale violation) acc r.1 r.2.1 r.2.2) (p, [])

/-- As `grow`, unless a stalled row has no penalty. -/
def grow? (p : Penalty T m) (violation previous : Array T) (c : Settings T) : Option (Penalty T m × List Nat) :=
  if (rowsWith violation previous).all fun r => r.1 < m || !stalled c r.2.1 r.2.2 then
    some (p.grow violation previous c)
  else none

/-- Lowers the weight after a solved subproblem. Tells whether it changed. -/
def lowerProximal (p : Penalty T m) (solved : Bool) (c : Settings T) : Penalty T m × Bool :=
  if !solved || !c.proximalEnable then (p, false)
  else
    let rho := Scalar.max (p.rho * c.proximalShrink) p.rhoFloor
    ({ p with rho }, !(rho == p.rho))

/-- Raises the weight after a failed factorization. -/
def regularize (p : Penalty T m) (c : Settings T) : Penalty T m :=
  { p with rho := Scalar.max (p.rho * c.proximalRegularizationFactor) c.minProximal }

/-- Keeps the weight from falling below its present value from now on. -/
def commit (p : Penalty T m) : Penalty T m := { p with rhoFloor := Scalar.max p.rhoFloor p.rho }

end Penalty
end AugLag
