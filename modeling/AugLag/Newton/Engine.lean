import AugLag.Newton.Augmented
import AugLag.Newton.Reduced

/-! The choice between the two forms of the Newton system. -/
namespace AugLag

inductive NewtonEngine (T : Type) (n m : Nat)
  | augmented (system : AugmentedSystem T n m)
  | reduced (system : ReducedSystem T n m)

namespace NewtonEngine

variable {T : Type} [Scalar T] {n m : Nat}

/-- The reduced form fills in a dense block for each row of `A`. It is chosen unless that fill exceeds twice the
size of the augmented form. -/
def preferReduced (Q A : SparseMatrix T) : Bool :=
  ReducedSystem.fillEstimate A ≤ 2 * (Q.nnz + A.nnz + A.cols + A.rows)

def useReduced (Q A : SparseMatrix T) : Method → Bool
  | .kkt => false
  | .schur => true
  | _ => preferReduced Q A

def ofProblem [Elimination.Rule] (Q A : SparseMatrix T) (n m : Nat) (method : Method) :
    Except NewtonError (NewtonEngine T n m) :=
  if useReduced Q A method then (ReducedSystem.ofProblem Q A n m).map .reduced
  else (AugmentedSystem.ofProblem Q A n m).map .augmented

/-- As `ofProblem`, for arrays that need not describe matrices. -/
def ofProblem? [Elimination.Rule] (Q A : SparseMatrix T) (method : Method) :
    Option (Except NewtonError (NewtonEngine T A.cols A.rows)) :=
  if Q.isSquare && Q.cols == A.cols && Q.entriesBelow Q.rows && A.entriesBelow A.rows then
    some (ofProblem Q A A.cols A.rows method)
  else none

def name : NewtonEngine T n m → String
  | .augmented _ => "kkt"
  | .reduced _ => "schur"

/-- Brings the factors in line with an active set, penalties and a proximal weight. -/
def update (engine : NewtonEngine T n m) (Q A : SparseMatrix T) (active : Vector Bool m) (sigma : Vector T m)
    (rho : T) (c : Settings T) : NewtonEngine T n m × Except NewtonError Unit × List (Event T) :=
  match engine with
  | .augmented S =>
    let (S, outcome) := S.update Q A active sigma rho
    (.augmented S, outcome, [])
  | .reduced S =>
    let (S, outcome, log) := S.update Q A active sigma rho c
    (.reduced S, outcome, log)

/-- The solution `d` of `(Q + ρ I + Aᵀ Σ A) d = rhs` over the active rows of `A`. -/
def solve (engine : NewtonEngine T n m) (rhs : Vector T n) : Vector T n :=
  match engine with
  | .augmented S => S.solve rhs
  | .reduced S => S.solve rhs

/-- Forces a factorization from scratch at the next update. -/
def invalidate : NewtonEngine T n m → NewtonEngine T n m
  | .augmented S => .augmented S.invalidate
  | .reduced S => .reduced S.invalidate

end NewtonEngine
end AugLag
