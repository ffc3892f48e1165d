import AugLag.Proofs.Checked.Augmented
import AugLag.Proofs.Checked.Reduced
import AugLag.Proofs.Newton.Opened

/-!
# The checked engine

Either form of the Newton system is made and used without an access that misses, if the pattern that it factors is put
in order by a permutation. Nothing here depends on how the scalars calculate.
-/

namespace AugLag.Checked.Engine

open SparseMatrix

variable {T : Type} [Scalar T] {Q A : SparseMatrix T} {n m : Nat} {method : Method}

/-! ## The choice of a form -/

def preferReduced (Q A : SparseMatrix T) : Option Bool := do
  return (← Reduced.fillEstimate A) ≤ 2 * ((← Q.nnz?) + (← A.nnz?) + A.cols + A.rows)

def useReduced (Q A : SparseMatrix T) : Method → Option Bool
  | .kkt => some false
  | .schur => some true
  | _ => preferReduced Q A

def ofProblem [Elimination.Rule] (Q A : SparseMatrix T) (n m : Nat) (method : Method) :
    Option (Except NewtonError (NewtonEngine T n m)) := do
  if ← useReduced Q A method then return (← Reduced.ofProblem Q A n m).map .reduced
  else return (← Augmented.ofProblem Q A n m).map .augmented

omit [Scalar T] in
theorem useReduced_eq (h : NewtonData Q A n m) : useReduced Q A method = some (NewtonEngine.useReduced Q A method) := by
  have hprefer : preferReduced Q A = some (NewtonEngine.preferReduced Q A) := by
    rw [preferReduced, Reduced.fillEstimate_eq h.constraints, nnz_eq h.cost.toLayout, nnz_eq h.constraints.toLayout]
    rfl
  cases method with
  | kkt => rfl
  | schur => rfl
  | _ => exact hprefer

/-! ## Updates and solutions -/

/-- Brings the factors in line with an active set, penalties and a proximal weight. -/
def update (engine : NewtonEngine T n m) (Q A : SparseMatrix T) (active : Vector Bool m) (sigma : Vector T m)
    (rho : T) (c : Settings T) : Option (NewtonEngine T n m × Except NewtonError Unit × List (Event T)) :=
  match engine with
  | .augmented S => do
    let out ← Augmented.update S Q A active sigma rho
    return (.augmented out.1, out.2, [])
  | .reduced S => do
    let out ← Reduced.update S Q A active sigma rho c
    return (.reduced out.1, out.2)

/-- The direction of the Newton step with the given right hand side. -/
def solve (engine : NewtonEngine T n m) (rhs : Vector T n) : Option (Vector T n) :=
  match engine with
  | .augmented S => Augmented.solve S rhs
  | .reduced S => Reduced.solve S rhs

/-- The system knows the places of its data, and its factors can be used. -/
def Intact (Q A : SparseMatrix T) : NewtonEngine T n m → Prop
  | .augmented S => Augmented.Intact Q A S
  | .reduced S => Reduced.Intact Q A S

namespace Intact

variable {engine : NewtonEngine T n m} (h : Intact Q A engine)

include h

/-- Whether or not an update succeeds, the engine can be updated again. -/
theorem update (active : Vector Bool m) (sigma : Vector T m) (rho : T) (c : Settings T) :
    update engine Q A active sigma rho c = some (engine.update Q A active sigma rho c) ∧
      Intact Q A (engine.update Q A active sigma rho c).1 := by
  cases engine with
  | augmented S =>
      obtain ⟨hupdate, hintact⟩ := @Augmented.Intact.update _ _ _ _ _ _ _ active sigma rho h
      rw [Engine.update, hupdate]
      exact ⟨rfl, hintact⟩
  | reduced S =>
      obtain ⟨hupdate, hintact⟩ := @Reduced.Intact.update _ _ _ _ _ _ _ active sigma rho h c
      rw [Engine.update, hupdate]
      exact ⟨rfl, hintact⟩

theorem solve (rhs : Vector T n) : solve engine rhs = some (engine.solve rhs) := by
  cases engine with
  | augmented S => exact Augmented.Intact.solve h rhs
  | reduced S => exact Reduced.Intact.solve h rhs

omit [Scalar T] in
theorem invalidate : Intact Q A engine.invalidate := by
  cases engine with
  | augmented S => exact Augmented.Intact.invalidate h
  | reduced S => exact Reduced.Intact.invalidate h

end Intact

/-- An engine that is made can be used. -/
theorem ofProblem_eq [Elimination.Rule] (h : NewtonData Q A n m) (hpermuted : NewtonEngine.Permuted Q A method) :
    ofProblem Q A n m method = some (NewtonEngine.ofProblem Q A n m method) ∧
      ∀ engine, NewtonEngine.ofProblem Q A n m method = .ok engine → Intact Q A engine := by
  rw [ofProblem, useReduced_eq h, NewtonEngine.ofProblem]
  unfold NewtonEngine.Permuted at hpermuted
  cases hreduced : NewtonEngine.useReduced Q A method with
  | true =>
      rw [hreduced] at hpermuted
      obtain ⟨hsystem, -⟩ := Reduced.ofProblem_eq h hpermuted
      constructor
      · simp only [Option.bind_eq_bind, Option.bind_some, if_true, hsystem]
        rfl
      · intro engine hengine
        obtain ⟨S, hS, rfl⟩ := map_eq_ok.mp hengine
        exact Reduced.intact_of_ofProblem h hpermuted hS
  | false =>
      rw [hreduced] at hpermuted
      obtain ⟨hsystem, hintact⟩ := Augmented.ofProblem_eq h hpermuted
      constructor
      · simp only [Option.bind_eq_bind, Option.bind_some, Bool.false_eq_true, if_false, hsystem]
        rfl
      · intro engine hengine
        obtain ⟨S, hS, rfl⟩ := map_eq_ok.mp hengine
        exact hintact S hS

end AugLag.Checked.Engine
