import AugLag.Proofs.Solver.WarmStart
import AugLag.Proofs.Workspace.Convex

/-!
# Sessions that start at a solution

Whatever a session has solved before, a convex problem that is started at an exact solution is solved at once, and the
solution that is reported is the one that was given.
-/

namespace AugLag

variable {K : Type} {n m : Nat}

open scoped Matrix

/-! ## A sample session -/

namespace Sample

/-- After a first solve the second row got a lower bound, and the cost another minimum. -/
def cornered : Workspace ℚ :=
  (((solved (opened lopsided)).updateBounds (some #[0, -8]) (some #[30, 4])).1.updateCost #[3, -61 / 4]).1

def corneredInput : ProblemInput ℚ := (lopsided.withBounds (some #[0, -8]) (some #[30, 4])).withCost #[3, -61 / 4]

theorem ledger_cornered : Ledger 10 2 2 cornered corneredInput := by
  refine ledger_changed ?_
  obtain ⟨S, hw, -⟩ := exists_solver_lopsided
  rw [Workspace.updateBounds, Workspace.change_outcome hw, Solver.updateBounds_eq]
  rfl

theorem constraints_cornered : (corneredInput.posed 2 2).A = !![1, 2; 0, 16] := by
  decide

theorem activity_corner : (corneredInput.posed 2 2).A *ᵥ ![-1 / 2, 1 / 4] = ![0, 4] := by
  rw [constraints_cornered]
  ext i
  match i with
  | 0 => norm_num [Matrix.mulVec, dotProduct, Fin.sum_univ_two]
  | 1 => norm_num [Matrix.mulVec, dotProduct, Fin.sum_univ_two]

theorem stationary_corner :
    (corneredInput.posed 2 2).Q *ᵥ ![-1 / 2, 1 / 4] + (corneredInput.posed 2 2).q +
      (corneredInput.posed 2 2).Aᵀ *ᵥ ![-5 / 4, 1] = 0 := by
  have hQ : (corneredInput.posed 2 2).Q = !![4, 1; 1, 9] := by
    decide
  have hq : (corneredInput.posed 2 2).q = ![3, -61 / 4] := by
    ext j
    match j with
    | 0 => rfl
    | 1 => rfl
  rw [constraints_cornered, hQ, hq]
  ext j
  simp only [Pi.add_apply, Pi.zero_apply, Matrix.mulVec, dotProduct, Fin.sum_univ_two, Matrix.transpose_apply,
    Matrix.of_apply]
  match j with
  | 0 => norm_num
  | 1 => norm_num

/-- The first row is at its lower bound in the corner, the second one at its upper bound. -/
theorem solvedBy_corner : (corneredInput.posed 2 2).SolvedBy 10 ![-1 / 2, 1 / 4] ![-5 / 4, 1] where
  lower_le := by
    rw [activity_corner]
    decide
  le_upper := by
    rw [activity_corner]
    decide
  stationary := stationary_corner
  at_upper i hi := by
    rw [activity_corner]
    match i with
    | 0 => norm_num at hi
    | 1 => exact ⟨by decide, rfl⟩
  at_lower i hi := by
    rw [activity_corner]
    match i with
    | 0 => exact ⟨by decide, rfl⟩
    | 1 => norm_num at hi

/-- Only the first row lacks a bound, and its activity is zero. -/
theorem activityInside_corner (S : ScaledProgram ℚ 2 2) :
    S.ActivityInside (corneredInput.posed 2 2) 10 ![-1 / 2, 1 / 4] := by
  have hbounded : (corneredInput.posed 2 2).HasLower 10 1 ∧ (corneredInput.posed 2 2).HasUpper 10 1 := by
    decide
  intro i hi
  rw [activity_corner]
  match i with
  | 0 => simp
  | 1 => simp [hbounded] at hi

theorem patternOrdered_cornered {S : Solver ℚ 2 2} (h : S.Holds corneredInput 10) :
    NewtonEngine.PatternOrdered S.program.Q S.program.A S.settings.factorizationMethod :=
  .of_samePattern h.stores.cost_pattern h.stores.constraints_pattern
    (.of_both (ordered_lopsided (.inl rfl)) (ordered_lopsided (.inr rfl)) _)

end Sample

/-! ## Solutions that are given -/

variable [ExactMachine K] {limit : K} {P : PosedProblem K n m} {x : Fin n → K} {y : Fin m → K}

/-- The solution `x` with multipliers `y`, found without a step. -/
structure Results.Immediate (results : Results K) (x : Fin n → K) (y : Fin m → K) : Prop where
  status : results.info.status = .solved
  iter : results.info.iter = 0
  iterOut : results.info.iterOut = 0
  primal : results.x = Array.ofFn x
  dual : results.y = Array.ofFn y
  primalResidual : results.info.primalResidual = 0
  dualResidual : results.info.dualResidual = 0

theorem Solver.immediate_of_startsAt {S : Solver K n m} (h : S.Serves P limit)
    (hengine : S.engine.Consistent S.program.Q S.program.A) (hQ : PosSemidef P.Q) (hx : P.SolvedBy limit x y)
    (hin : S.program.ActivityInside P limit x) (hstart : S.StartsAt x y) (expired : Nat → Bool) :
    ((S.run expired).2.results S.program).Immediate x y := by
  obtain ⟨r, hr, hblank, hrun, hinfo⟩ := exists_run_at h.scaling h.settings hengine hQ hx hin hstart expired
  obtain ⟨hprimal, hdual, -⟩ := hr.measure_reports h.scaling hx hin
  obtain ⟨hprimalNorm, hdualNorm⟩ := hr.measure_residuals h.scaling hx hin
  obtain ⟨hxs, hys⟩ := Outcome.results_solution _ S.program (by rw [hinfo]; rfl)
  rw [hrun, hprimal] at hxs
  rw [hrun, hdual] at hys
  have hreported : ((S.run expired).2.results S.program).info = finalInfo S.program (r.measure S.program) .solved := hinfo
  exact
    { status := by rw [hreported]; rfl
      iter := by
        rw [hreported]
        exact congrArg Info.iter hblank
      iterOut := by
        rw [hreported]
        exact congrArg Info.iterOut hblank
      primal := hxs
      dual := hys
      primalResidual := by
        rw [hreported]
        exact hprimalNorm
      dualResidual := by
        rw [hreported]
        exact hdualNorm }

namespace Session

variable {w : Workspace K} {S : Solver K n m}

/-- A solve of a convex problem that starts at an exact solution takes no step. It reports the solution as it was
given, with residuals that vanish. -/
theorem solution_kept [Elimination.Rule] (h : Session limit w P) (hlimit : 0 < limit) (hw : w.prepared = some ⟨n, m, S⟩)
    (hQ : PosSemidef P.Q)
    (horder : NewtonEngine.PatternOrdered S.program.Q S.program.A S.settings.factorizationMethod)
    (hx : P.SolvedBy limit x y) (hin : S.program.ActivityInside P limit x) (clock : Nat → Float) :
    (w.warmStart (some (Array.ofFn x)) (some (Array.ofFn y))).2 = .ok () ∧
      ∃ solution, (w.warmStart (some (Array.ofFn x)) (some (Array.ofFn y))).1.solve clock = .ok solution ∧
        solution.results.Immediate x y := by
  have hconsistent := h.consistent hlimit hw horder
  obtain ⟨hok, hstart⟩ := S.startsAt_warmStart x y
  obtain ⟨hprogram, -, hengine, -⟩ := S.warmStart_keeps (some (Array.ofFn x)) (some (Array.ofFn y))
  obtain ⟨hw', houtcome⟩ := Workspace.warmStart_eq hw (some (Array.ofFn x)) (some (Array.ofFn y))
  have hok' := houtcome.trans hok
  have hserves := (h.warmStart hok').serves hlimit hw'
  obtain ⟨solution, hsolve⟩ := Workspace.exists_solveInto hw' clock (Results.blank 0 0)
  refine ⟨hok', solution, hsolve, ?_⟩
  rw [(Workspace.solve_eq hw' hsolve).2]
  rw [← hprogram] at hin
  rw [← hengine, ← hprogram] at hconsistent
  exact Solver.immediate_of_startsAt hserves hconsistent hQ hx hin hstart _

/-- The multipliers of both signs are kept, too, after a solve of another problem. -/
theorem solution_kept_cornered :
    ∃ solution, (Sample.cornered.warmStart (some #[-1 / 2, 1 / 4]) (some #[-5 / 4, 1])).1.solve (fun _ => 0) =
        .ok solution ∧ solution.results.Immediate ![-1 / 2, 1 / 4] ![-5 / 4, 1] := by
  obtain ⟨S, hw, hS⟩ := Sample.ledger_cornered.exists_holds (by norm_num)
  exact (solution_kept Sample.ledger_cornered.session (by norm_num) hw Sample.posSemidef_lopsided
    (Sample.patternOrdered_cornered hS) Sample.solvedBy_corner (Sample.activityInside_corner S.program) fun _ => 0).2

end Session
end AugLag
