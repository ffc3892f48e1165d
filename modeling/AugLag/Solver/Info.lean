import AugLag.Scalar.Basic
import AugLag.Solver.Status

/-! Statistics and results of a solve. -/
namespace AugLag

structure Info (T : Type) where
  /-- Newton iterations over all subproblems. -/
  iter : Nat
  /-- Multiplier updates. -/
  iterOut : Nat
  /-- Subproblems that were given up. -/
  innerNonconvergence : Nat
  status : Status
  /-- The maximum norm of `A x - z` in the units of the problem. -/
  primalResidual : T
  /-- The maximum norm of `Q x + q + Aᵀ y` in the units of the problem. -/
  dualResidual : T
  objective : T
  dualObjective : T

def Info.blank {T : Type} [Scalar T] : Info T where
  iter := 0
  iterOut := 0
  innerNonconvergence := 0
  status := .unsolved
  primalResidual := Scalar.nan
  dualResidual := Scalar.nan
  objective := Scalar.nan
  dualObjective := Scalar.nan

/-- A solution, or the certificate that there is none. What the status does not vouch for is NaN. -/
structure Results (T : Type) where
  x : Array T
  y : Array T
  /-- A multiplier of unit norm that no feasible point allows. -/
  primalCertificate : Array T
  /-- A direction of unit norm along which the cost falls without end. -/
  dualCertificate : Array T
  info : Info T

namespace Results

variable {T : Type} [Scalar T]

/-- Results of an unsolved problem with `n` variables and `m` constraints. -/
def blank (n m : Nat) : Results T where
  x := Array.replicate n Scalar.nan
  y := Array.replicate m Scalar.nan
  primalCertificate := Array.replicate m Scalar.nan
  dualCertificate := Array.replicate n Scalar.nan
  info := Info.blank

/-- The first `k` entries of an array. Those that it lacks are NaN. -/
def resized (a : Array T) (k : Nat) : Array T := a.extract 0 k ++ Array.replicate (k - a.size) Scalar.nan

/-- The results with room for `n` variables and `m` constraints. What they held stays where it fits. -/
def resize (r : Results T) (n m : Nat) : Results T :=
  { r with
    x := resized r.x n
    y := resized r.y m
    primalCertificate := resized r.primalCertificate m
    dualCertificate := resized r.dualCertificate n }

/-- Copies the entries of an array over those of another one, as far as that reaches. -/
def copyOver (target source : Array T) : Array T :=
  (List.range source.size).foldl (fun a i => a.setIfInBounds i (source.getD i 0)) target

/-- Writes new results over older ones, entry by entry. -/
def overwrite (old new : Results T) : Results T where
  x := copyOver old.x new.x
  y := copyOver old.y new.y
  primalCertificate := copyOver old.primalCertificate new.primalCertificate
  dualCertificate := copyOver old.dualCertificate new.dualCertificate
  info := new.info

end Results

end AugLag
