import AugLag.Proofs.Solver.Curvature
import AugLag.Proofs.Workspace.Separation

/-!
# Curvature at the start of a session

What becomes of a start that needs no step, if the cost is not known to be convex. It is refused where the cost curves
down by more than the proximal weight makes up for, and accepted where the weight outweighs it. So a solve can end as
solved at the top of a shallow concave cost.
-/

namespace AugLag

variable {K : Type} {n m : Nat}

open scoped Matrix

/-! ## A sample -/

namespace Sample

/-- A cost that curves down between two bounds. -/
def arch (curvature : ℚ) : ProblemInput ℚ :=
  { Q := some (.dense 1 1 #[curvature]), q := none, A := some (.dense 1 1 #[1]), bmin := some #[-1], bmax := some #[1] }

/-- An arch that the proximal weight outweighs. -/
def shallow : ProblemInput ℚ := arch (-1 / 20)

def steep : ProblemInput ℚ := arch (-20)

def reportedPoint (w : Workspace ℚ) : Option (Array ℚ) := (w.solve fun _ => 0).toOption.map fun s => s.results.x

/-- The cost of a workspace curves down in spite of the first proximal weight. -/
def curvesDown (w : Workspace ℚ) (P : PosedProblem ℚ 1 1) : Bool :=
  match w.prepared with
  | some ⟨1, 1, S⟩ => decide (S.curvature P (S.startWeight 0) 1 < 0)
  | _ => false

theorem steep_checked :
    (Workspace.setup steep settings 10).1.toBool = true ∧ (opened steep).dims = some (1, 1) ∧
      NewtonEngine.PatternOrdered (steep.normalize 1 1 10).1.Q (steep.normalize 1 1 10).1.A .kkt ∧
      curvesDown (opened steep) (steep.posed 1 1) = true := by
  decide +kernel

/-- The shallow sample is set up, and reported as solved where it is stationary. At a bound it lies lower. -/
theorem shallow_checked :
    (Workspace.setup shallow settings 10).1.toBool = true ∧ (opened shallow).dims = some (1, 1) ∧
      (status (opened shallow) = some .solved ∧ iterations (opened shallow) = some 0 ∧
        reportedPoint (opened shallow) = some #[0]) ∧
      (shallow.posed 1 1).Q = !![-1 / 20] ∧
      (∀ i, (shallow.posed 1 1).lowerAt 10 i ≤ ((shallow.posed 1 1).A *ᵥ ![1]) i ∧
        ((shallow.posed 1 1).A *ᵥ ![1]) i ≤ (shallow.posed 1 1).upperAt 10 i) ∧
      (shallow.posed 1 1).objective ![1] < (shallow.posed 1 1).objective ![0] := by
  decide +kernel

theorem ne_zero_of_fin_one {v : Fin 1 → ℚ} (hv : v ≠ 0) : v 0 ≠ 0 := fun hzero => hv (funext fun j => by
  rw [Fin.fin_one_eq_zero j]
  exact hzero)

theorem negative_shallow {v : Fin 1 → ℚ} (hv : v ≠ 0) : v ⬝ᵥ (shallow.posed 1 1).Q *ᵥ v < 0 := by
  obtain ⟨-, -, -, hQ, -⟩ := shallow_checked
  have hpos : 0 < v 0 * v 0 := mul_self_pos.mpr (ne_zero_of_fin_one hv)
  simp only [hQ, dotProduct, Matrix.mulVec, Fin.sum_univ_one, Matrix.of_apply, Matrix.cons_val_zero]
  linarith

theorem curvature_neg_of_curvesDown {w : Workspace ℚ} {P : PosedProblem ℚ 1 1} {S : Solver ℚ 1 1}
    (hw : w.prepared = some ⟨1, 1, S⟩) (h : curvesDown w P = true) {v : Fin 1 → ℚ} (hv : v ≠ 0) :
    S.curvature P (S.startWeight 0) v < 0 := by
  have hone : S.curvature P (S.startWeight 0) 1 < 0 := by
    rw [curvesDown, hw] at h
    exact of_decide_eq_true h
  -- with one variable there is one direction
  have hsquare : S.curvature P (S.startWeight 0) v = v 0 ^ 2 * S.curvature P (S.startWeight 0) 1 := by
    simp only [Solver.curvature, Solver.damped, ScaledProgram.toScaled, dotProduct, Matrix.mulVec, Fin.sum_univ_one,
      Pi.one_apply]
    ring
  rw [hsquare]
  exact mul_neg_of_pos_of_neg (sq_pos_of_ne_zero (ne_zero_of_fin_one hv)) hone

end Sample

/-! ## What is refused -/

namespace Session

variable [ExactMachine K] {limit : K} {w : Workspace K} {P : PosedProblem K n m} {S : Solver K n m}

/-- Unless a problem may be nonconvex, a solve goes on only if one of the weights that are tried outweighs the cost in
every direction, together with the active rows. It is refused if the cost curves down in every direction in spite of the
first weight. A start that needs no step is either refused or the result, and it is the result if the first weight
outweighs the cost alone. -/
theorem curvature_outweighed [Elimination.Rule] (h : Session limit w P) (hlimit : 0 < limit)
    (hw : w.prepared = some ⟨n, m, S⟩)
    (horder : NewtonEngine.PatternOrdered S.program.Q S.program.A S.settings.factorizationMethod)
    (hconvex : S.settings.nonconvex = false) (clock : Nat → Float) :
    ∃ solution, w.solve clock = .ok solution ∧
      (solution.results.info.status ≠ .nonConvex →
        ∃ k ≤ S.settings.maxFactorizationRetries, ∀ v, v ≠ 0 → 0 < S.curvature P (S.startWeight k) v) ∧
      (0 < n → (∀ v, v ≠ 0 → S.curvature P (S.startWeight 0) v < 0) → solution.results.info.status = .nonConvex) ∧
      (S.StartsSolved → solution.results.info.status = .nonConvex ∨
        solution.results.info.status = .solved ∧ solution.results.info.iter = 0) ∧
      (S.StartsSolved → (∀ v, v ≠ 0 → 0 < S.damped P (S.startWeight 0) v) →
        solution.results.info.status = .solved ∧ solution.results.info.iter = 0) := by
  have hS := h.serves hlimit hw
  have hengine := h.consistent hlimit hw horder
  obtain ⟨solution, hsolve⟩ := Workspace.exists_solveInto hw clock (Results.blank 0 0)
  obtain ⟨-, hresults⟩ := Workspace.solve_eq hw hsolve
  refine ⟨solution, hsolve, ?_⟩
  rw [hresults]
  refine ⟨fun hstatus => ?_, fun hn hneg => ?_, fun hsolved => ?_, fun hsolved hpos => ?_⟩
  · by_contra hnone
    refine hstatus (Solver.status_of_not_startFactors hconvex (fun hfactors => hnone ?_) _)
    exact hfactors.exists_curvature_pos hS.scaling hS.settings hengine
  · exact Solver.status_of_not_startFactors hconvex
      (Solver.not_startFactors_of_curvature_neg hS.scaling hS.settings hengine hn hneg) _
  · by_cases hfactors : S.StartFactors
    · exact .inr (Solver.run_of_startFactors hS.settings hconvex hsolved hfactors _)
    · exact .inl (Solver.status_of_not_startFactors hconvex hfactors _)
  · have hfactors := Solver.startFactors_of_damped_pos hS.scaling hS.settings hengine hpos
    exact Solver.run_of_startFactors hS.settings hconvex hsolved hfactors _

theorem curvature_outweighed_steep :
    ∃ solution, (Sample.opened Sample.steep).solve (fun _ => 0) = .ok solution ∧
      solution.results.info.status = .nonConvex := by
  obtain ⟨hsetup, hdims, hordered, hdown⟩ := Sample.steep_checked
  obtain ⟨S, hw, hsettings, hstores⟩ := Sample.exists_solver_opened hsetup hdims
  have horder : NewtonEngine.PatternOrdered S.program.Q S.program.A S.settings.factorizationMethod := by
    rw [hsettings]
    exact .of_samePattern hstores.cost_pattern hstores.constraints_pattern hordered
  obtain ⟨solution, hsolve, -, hrefused, -⟩ := curvature_outweighed (Sample.session_opened Sample.steep hsetup hdims)
    (by norm_num) hw horder (by rw [hsettings]; rfl) fun _ => 0
  refine ⟨solution, hsolve, hrefused one_pos fun v hv => ?_⟩
  exact Sample.curvature_neg_of_curvesDown hw hdown hv

/-- The shallow sample is strictly concave. Its top is reported as solved without any step, though the cost is lower at
the bounds. -/
theorem concave_start_solved :
    Session 10 (Sample.opened Sample.shallow) (Sample.shallow.posed 1 1) ∧ Sample.settings.nonconvex = false ∧
      (∀ v, v ≠ 0 → v ⬝ᵥ (Sample.shallow.posed 1 1).Q *ᵥ v < 0) ∧
        Sample.status (Sample.opened Sample.shallow) = some .solved ∧
          Sample.iterations (Sample.opened Sample.shallow) = some 0 ∧
            Sample.reportedPoint (Sample.opened Sample.shallow) = some #[0] ∧
              (Sample.shallow.posed 1 1).Feasible 10 ![1] ∧
                (Sample.shallow.posed 1 1).objective ![1] < (Sample.shallow.posed 1 1).objective ![0] := by
  obtain ⟨hsetup, hdims, ⟨hstatus, hiter, hpoint⟩, -, hinside, hlower⟩ := Sample.shallow_checked
  exact ⟨Sample.session_opened Sample.shallow hsetup hdims, rfl, fun v hv => Sample.negative_shallow hv, hstatus, hiter,
    hpoint, { lower_le := fun i _ => (hinside i).1, le_upper := fun i _ => (hinside i).2 }, hlower⟩

end Session
end AugLag
