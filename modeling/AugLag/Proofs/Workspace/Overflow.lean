import AugLag.Proofs.Solver.Overflow
import AugLag.Proofs.Workspace.Replay

/-!
# What a solution says where numbers overflow

A solve that ends with a solution has norms that are numbers, and they are finite as far as the tolerances are. They
account for the residuals that are defined, and for no others: a point whose residuals are all NaN passes.
-/

namespace AugLag

namespace Workspace

variable {T : Type} [MachineScalar T] [SpecialValues T] {n m : Nat} {w : Workspace T} {S : Solver T n m}

open Scalar

/-- At every point the test for a solution is that of the residuals that are defined, and a residual that is NaN is not
among these. Where the test succeeds, the norms are not NaN; where a tolerance is finite, too, the norm and all residuals
behind it are finite, except for those whose scaled value is NaN. A reported solution has passed the test at the reported
norms. -/
theorem solved_where_defined (hw : w.prepared = some ⟨n, m, S⟩) :
    (∀ (p : Point T n m) (e : Evaluation T n m) (epsAbs epsRel : T),
      ((Residuals.ofPoint S.program p e).isSolved epsAbs epsRel = true ↔
        Residuals.Passes S.program p e epsAbs epsRel) ∧
      (∀ i, isNaN (e.violation.get i) = true → isNaN (e.primalTerm S.program i) = true) ∧
      (∀ j, isNaN (e.stationarity.get j) = true → isNaN (e.dualTerm S.program j) = true) ∧
      ((Residuals.ofPoint S.program p e).isSolved epsAbs epsRel = true →
        (isNaN (Residuals.ofPoint S.program p e).primal = false ∧
          isNaN (Residuals.ofPoint S.program p e).dual = false) ∧
        (isFinite ((Residuals.ofPoint S.program p e).primalTolerance epsAbs epsRel) = true →
          isFinite (Residuals.ofPoint S.program p e).primal = true ∧
            ∀ i, isNaN (e.primalTerm S.program i) = true ∨ isFinite (e.violation.get i) = true) ∧
        (isFinite ((Residuals.ofPoint S.program p e).dualTolerance epsAbs epsRel) = true →
          0 ≤ recip S.program.scaling.c →
            isFinite (Residuals.ofPoint S.program p e).dual = true ∧
              ∀ j, isNaN (e.dualTerm S.program j) = true ∨ isFinite (e.stationarity.get j) = true))) ∧
    ∀ (clock : Nat → Float) (old : Results T) (solution : Solution T), w.solveInto clock old = .ok solution →
      solution.results.info.status = .solved →
        ∃ (p : Point T n m) (e : Evaluation T n m),
          solution.results.info.primalResidual = (Residuals.ofPoint S.program p e).primal ∧
            solution.results.info.dualResidual = (Residuals.ofPoint S.program p e).dual ∧
              (Residuals.ofPoint S.program p e).isSolved S.settings.epsAbs S.settings.epsRel = true := by
  refine ⟨fun p e epsAbs epsRel => ⟨Residuals.isSolved_iff_passes, fun _ => SpecialValues.isNaN_mul _,
    fun _ => SpecialValues.isNaN_mul _, fun h => ⟨Residuals.isNaN_of_isSolved h, Residuals.isFinite_primal h,
      fun htol hc => Residuals.isFinite_dual h hc htol⟩⟩, fun clock old solution hsolve hstatus => ?_⟩
  obtain ⟨-, hresults⟩ := solveInto_eq hw hsolve
  rw [hresults] at hstatus ⊢
  exact ⟨_, _, S.solves_of_run _ hstatus⟩

end Workspace

namespace Sample

def overflowSettings : Settings Float :=
  { Settings.default with factorizationMethod := .kkt, verbose := false, scalingEnable := false, maxIter := 5 }

/-- A row whose two products overflow with opposite signs where both variables are large. -/
def overflowing : ProblemInput Float :=
  { Q := some (.dense 2 2 #[1, 0, 0, 1]), q := some #[1, 0], A := some (.dense 1 2 #[1e200, -1e200])
    bmin := some #[0], bmax := some #[1] }

/-- The problem with a starting point at which it overflows. -/
def overflowed : Workspace Float :=
  match (Workspace.setup overflowing overflowSettings 1e20).1 with
  | .ok w => (w.warmStart (some #[1e200, 2e200]) none).1
  | .error _ => { prepared := none, target := .stdout }

/-- All residuals at the starting point are NaN. They pass the test for a solution, and the solve ends with one. -/
def acceptsUndefined (w : Workspace Float) : Bool :=
  match w.prepared, w.solve fun _ => 0 with
  | some ⟨2, 1, S⟩, .ok solution =>
    let r := S.start.measure S.program
    let epsAbs := S.settings.epsAbs
    let epsRel := S.settings.epsRel
    decide (solution.results.info.status = .solved) && solution.results.y.all Scalar.isNaN &&
      (List.finRange 1).all (fun i => Scalar.isNaN (r.evaluation.violation.get i)) &&
      (List.finRange 2).all (fun j => Scalar.isNaN (r.evaluation.stationarity.get j)) &&
      Scalar.isFinite (r.residuals.primalTolerance epsAbs epsRel) &&
      Scalar.isFinite (r.residuals.dualTolerance epsAbs epsRel) && r.residuals.isSolved epsAbs epsRel
  | _, _ => false

theorem exists_of_acceptsUndefined {w : Workspace Float} (h : acceptsUndefined w = true) :
    ∃ (S : Solver Float 2 1) (solution : Solution Float), w.prepared = some ⟨2, 1, S⟩ ∧
      w.solve (fun _ => 0) = .ok solution ∧ solution.results.info.status = .solved ∧
      solution.results.y.all Scalar.isNaN = true ∧
      (∀ i, Scalar.isNaN ((S.start.measure S.program).evaluation.violation.get i) = true) ∧
      (∀ j, Scalar.isNaN ((S.start.measure S.program).evaluation.stationarity.get j) = true) ∧
      Scalar.isFinite
        ((S.start.measure S.program).residuals.primalTolerance S.settings.epsAbs S.settings.epsRel) = true ∧
      Scalar.isFinite
        ((S.start.measure S.program).residuals.dualTolerance S.settings.epsAbs S.settings.epsRel) = true ∧
      (S.start.measure S.program).residuals.isSolved S.settings.epsAbs S.settings.epsRel = true := by
  unfold acceptsUndefined at h
  split at h
  · next S solution hw hsolve =>
      simp only [Bool.and_eq_true, decide_eq_true_eq, List.all_eq_true, List.mem_finRange, true_implies, and_assoc]
        at h
      exact ⟨S, solution, hw, hsolve, h⟩
  · cases h

end Sample

namespace Workspace

open Scalar

/-- Solved at once, with norms that are finite numbers although no residual is one. -/
theorem solved_where_defined_overflowed :
    ∃ (S : Solver Float 2 1) (solution : Solution Float) (p : Point Float 2 1) (e : Evaluation Float 2 1),
      Sample.overflowed.prepared = some ⟨2, 1, S⟩ ∧ Sample.overflowed.solve (fun _ => 0) = .ok solution ∧
        solution.results.info.primalResidual = (Residuals.ofPoint S.program p e).primal ∧
          solution.results.info.dualResidual = (Residuals.ofPoint S.program p e).dual ∧
            Residuals.Passes S.program p e S.settings.epsAbs S.settings.epsRel ∧
              isNaN solution.results.info.primalResidual = false ∧
                isNaN solution.results.info.dualResidual = false := by
  obtain ⟨S, solution, hw, hsolve, hstatus, -⟩ :=
    Sample.exists_of_acceptsUndefined (w := Sample.overflowed) (by decide +kernel)
  obtain ⟨htest, hreported⟩ := solved_where_defined hw
  obtain ⟨p, e, hprimal, hdual, hsolved⟩ := hreported _ _ solution hsolve hstatus
  obtain ⟨hiff, -, -, hnumbers⟩ := htest p e S.settings.epsAbs S.settings.epsRel
  refine ⟨S, solution, p, e, hw, hsolve, hprimal, hdual, hiff.mp hsolved, ?_, ?_⟩
  · rw [hprimal]
    exact (hnumbers hsolved).1.1
  · rw [hdual]
    exact (hnumbers hsolved).1.2

/-- The overflowing start: no residual is a number, the tolerances are finite, and the point is accepted. -/
theorem undefined_accepted :
    ∃ (S : Solver Float 2 1) (solution : Solution Float), Sample.overflowed.prepared = some ⟨2, 1, S⟩ ∧
      Sample.overflowed.solve (fun _ => 0) = .ok solution ∧ solution.results.info.status = .solved ∧
      solution.results.y.all isNaN = true ∧
      (∀ i, isNaN ((S.start.measure S.program).evaluation.violation.get i) = true) ∧
      (∀ j, isNaN ((S.start.measure S.program).evaluation.stationarity.get j) = true) ∧
      isFinite ((S.start.measure S.program).residuals.primalTolerance S.settings.epsAbs S.settings.epsRel) = true ∧
      isFinite ((S.start.measure S.program).residuals.dualTolerance S.settings.epsAbs S.settings.epsRel) = true ∧
      (S.start.measure S.program).residuals.isSolved S.settings.epsAbs S.settings.epsRel = true :=
  Sample.exists_of_acceptsUndefined (by decide +kernel)

end Workspace
end AugLag
