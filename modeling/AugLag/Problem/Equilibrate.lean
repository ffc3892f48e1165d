import AugLag.Problem.Program
import AugLag.Settings.Basic
import AugLag.Sparse.Norm

/-! Equilibration of a program. Each round divides the rows and columns of `[Q, Aᵀ; A, 0]` by the square roots of
their norms; in the end the cost is divided by the norm of the linear cost. -/
namespace AugLag

/-- A norm by which to scale. A tiny one belongs to an empty row or column, which is left alone. -/
def limitNorm {T : Type} [Scalar T] (c : Settings T) (s : T) : T :=
  if s < c.scalingMin then 1 else if c.scalingMax < s then c.scalingMax else s

namespace ScaledProgram

variable {T : Type} [Scalar T] {n m : Nat}

/-- The factor by which one round scales a row or column of the given norm. -/
def roundFactor (c : Settings T) (norm : T) : T := Scalar.recip (Scalar.sqrt (limitNorm c norm))

/-- One round of scaling. The bounds and the inverse scalings are left as they are. -/
def equilibrateRound (c : Settings T) (P : ScaledProgram T n m) : ScaledProgram T n m :=
  let columns := (P.A.foldColumnNorms (P.Q.symColumnNorms n)).map (roundFactor c)
  let rows := (P.A.rowNorms m).map (roundFactor c)
  { P with
    Q := P.Q.scaleBoth columns columns
    A := P.A.scaleBoth rows columns
    q := Vec.hadamard P.q columns
    scaling := { P.scaling with
      d := Vec.hadamard P.scaling.d columns
      e := Vec.hadamard P.scaling.e rows } }

/-- Scales the cost, and inverts the scalings of variables and constraints. -/
def scaleCost (c : Settings T) (P : ScaledProgram T n m) : ScaledProgram T n m :=
  let factor := Scalar.recip (limitNorm c (Scalar.max 1 (Vec.normInf P.q)))
  { P with
    Q := P.Q.scale factor
    q := Vec.scale P.q factor
    scaling := { P.scaling with
      c := factor
      dinv := Vec.recip P.scaling.d
      einv := Vec.recip P.scaling.e } }

/-- Scales a program that is in its own units, if the settings ask for it. -/
def equilibrate (P : ScaledProgram T n m) (c : Settings T) : ScaledProgram T n m :=
  if !c.scalingEnable then P
  else
    let scaled := (List.range c.scalingIter).foldl (fun P _ => equilibrateRound c P) P
    (scaleCost c scaled).setBounds P.bmin P.bmax

end ScaledProgram
end AugLag
