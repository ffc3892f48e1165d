import AugLag.Insertion
import AugLag.Settings.Basic
import AugLag.Vec.Basic

/-! Exact line search for the augmented Lagrangian along a direction,
`ψ(τ) = ½ η τ² + β τ + Σ ½ max(0, δ τ - α)²` with one piece `(δ, α)` for each finite bound. -/
namespace AugLag

structure LineSearch (T : Type) (m : Nat) where
  eta : T
  beta : T
  Ax : Vector T m
  Ad : Vector T m
  y : Vector T m
  sigma : Vector T m
  bmin : Vector T m
  bmax : Vector T m
  lowerFinite : Vector Bool m
  upperFinite : Vector Bool m

namespace LineSearch

variable {T : Type} [Scalar T] {m : Nat}

structure Piece (T : Type) where
  delta : T
  alpha : T

/-- The straight line `a τ + b`, which is the slope of `ψ` between two breakpoints. -/
structure Slope (T : Type) where
  a : T
  b : T

/-- The value `½ max(0, δ τ - α)²`. -/
def Piece.value (p : Piece T) (τ : T) : T :=
  let v := Scalar.max 0 (p.delta * τ - p.alpha)
  v * v * 0.5

/-- The piece counts immediately after zero. -/
def Piece.startsActive (p : Piece T) : Bool := p.alpha < 0 || (p.alpha == 0 && 0 < p.delta)

/-- The piece starts or ends to count at this point. -/
def Piece.breakpoint (p : Piece T) : T := p.alpha / p.delta

/-- Adds a piece to the slope. -/
def Slope.add (s : Slope T) (p : Piece T) : Slope T :=
  { a := s.a + p.delta * p.delta, b := s.b - p.delta * p.alpha }

/-- Takes a piece away from the slope. -/
def Slope.remove (s : Slope T) (p : Piece T) : Slope T :=
  { a := s.a - p.delta * p.delta, b := s.b + p.delta * p.alpha }

/-- The slope behind the breakpoint of a piece, which starts to count if it rises and ends otherwise. -/
def Slope.cross (s : Slope T) (p : Piece T) : Slope T := if 0 < p.delta then s.add p else s.remove p

def lowerPiece (S : LineSearch T m) (i : Fin m) : Piece T :=
  let root := Scalar.sqrt (S.sigma.get i)
  { delta := -root * S.Ad.get i, alpha := (S.y.get i + S.sigma.get i * (S.Ax.get i - S.bmin.get i)) / root }

def upperPiece (S : LineSearch T m) (i : Fin m) : Piece T :=
  let root := Scalar.sqrt (S.sigma.get i)
  { delta := root * S.Ad.get i, alpha := (S.sigma.get i * (S.bmax.get i - S.Ax.get i) - S.y.get i) / root }

/-- The pieces of all finite bounds, row by row. -/
def pieces (S : LineSearch T m) : List (Piece T) :=
  (List.finRange m).flatMap fun i =>
    (if S.lowerFinite.get i then [S.lowerPiece i] else []) ++ if S.upperFinite.get i then [S.upperPiece i] else []

/-- The slope of `ψ` immediately after zero. -/
def initialSlope (S : LineSearch T m) : Slope T :=
  S.pieces.foldl (fun s p => if p.startsActive then s.add p else s) { a := S.eta, b := S.beta }

/-- The pieces with a breakpoint beyond zero, in the order of the breakpoints. -/
def breakpoints (S : LineSearch T m) : List (T × Piece T) :=
  insertionSort (fun p q => p.1 < q.1)
    ((S.pieces.filter fun p => !(p.delta == 0) && 0 < p.breakpoint).map fun p => (p.breakpoint, p))

/-- The first zero of the slope. If it never rises to zero, the step has unit length. -/
def sweep (s : Slope T) : List (T × Piece T) → T
  | [] => if 0 < s.a then -s.b / s.a else 1
  | (t, p) :: rest =>
    if 0 ≤ s.a * t + s.b then (if 0 < s.a then -s.b / s.a else t) else sweep (s.cross p) rest

/-- The step that is tried first. -/
def firstTrial (S : LineSearch T m) : T := sweep S.initialSlope S.breakpoints

/-- `ψ(τ) - ψ(0)`. -/
def decrease (S : LineSearch T m) (τ : T) : T :=
  S.pieces.foldl (fun f p => f + (p.value τ - p.value 0)) (0.5 * S.eta * τ * τ + S.beta * τ)

/-- The step reaches the given part of the decrease that the initial slope predicts. -/
def sufficient (S : LineSearch T m) (c : Settings T) (slope τ : T) : Bool :=
  S.decrease τ ≤ c.linesearchArmijo * τ * slope

/-- The first of a number of shrinking steps that decreases `ψ` sufficiently. -/
def backtrack (S : LineSearch T m) (c : Settings T) (slope : T) : Nat → T → Option T
  | 0, _ => none
  | tries + 1, τ =>
    if S.sufficient c slope τ then some τ else backtrack S c slope tries (τ * c.linesearchBacktrackStep)

/-- The step to take. `none` means that `ψ` falls at zero but no step was found; where it does not fall, the step
is zero. -/
def search? (S : LineSearch T m) (c : Settings T) : Option T :=
  let slope := S.initialSlope.b
  if slope < 0 then S.backtrack c slope c.linesearchMaxBacktrack S.firstTrial else some 0

end LineSearch
end AugLag
