import AugLag.Proofs.Solver.Convex
import AugLag.Proofs.Solver.Optimality
import AugLag.Proofs.Workspace.Calls

/-!
# Starting at a solution

At an exact solution the projection of `A x + y / σ` is `A x` itself, whatever the penalties are: a row that pushes
lies on the bound that it pushes against. So the first evaluation keeps the multipliers and leaves no residual, and the
solve ends before its first step.
-/

namespace AugLag

variable {K : Type} [ExactScalar K] {n m : Nat} {S : ScaledProgram K n m} {P : PosedProblem K n m} {limit : K}
variable {x : Fin n → K} {y : Fin m → K}

open scoped Matrix

/-! ## Exact solutions -/

/-- The point `x` is feasible and stationary, and its multipliers `y` push against bounds that it lies on. -/
structure PosedProblem.SolvedBy (P : PosedProblem K n m) (limit : K) (x : Fin n → K) (y : Fin m → K) : Prop where
  lower_le : ∀ i, P.HasLower limit i → P.lowerAt limit i ≤ (P.A *ᵥ x) i
  le_upper : ∀ i, P.HasUpper limit i → (P.A *ᵥ x) i ≤ P.upperAt limit i
  stationary : P.Q *ᵥ x + P.q + P.Aᵀ *ᵥ y = 0
  at_upper : ∀ i, 0 < y i → P.HasUpper limit i ∧ (P.A *ᵥ x) i = P.upperAt limit i
  at_lower : ∀ i, y i < 0 → P.HasLower limit i ∧ (P.A *ᵥ x) i = P.lowerAt limit i

namespace ScaledProgram

/-- Rows that lack a bound keep their scaled activity within the limit. -/
def ActivityInside (S : ScaledProgram K n m) (P : PosedProblem K n m) (limit : K) (x : Fin n → K) : Prop :=
  ∀ i, ¬P.HasLower limit i ∨ ¬P.HasUpper limit i → |(P.A *ᵥ x) i * S.scaling.e.get i| ≤ limit

theorem IsScaling.lower_le_activity (h : S.IsScaling P limit) (hx : P.SolvedBy limit x y)
    (hin : S.ActivityInside P limit x) (i : Fin m) : S.bmin.get i ≤ (P.A *ᵥ x) i * S.scaling.e.get i := by
  rw [h.lower_eq]
  by_cases hl : P.HasLower limit i
  · rw [if_pos hl]
    exact mul_le_mul_of_nonneg_right (hx.lower_le i hl) (h.e_pos i).le
  · rw [if_neg hl]
    exact neg_le_of_abs_le (hin i (.inl hl))

theorem IsScaling.activity_le_upper (h : S.IsScaling P limit) (hx : P.SolvedBy limit x y)
    (hin : S.ActivityInside P limit x) (i : Fin m) : (P.A *ᵥ x) i * S.scaling.e.get i ≤ S.bmax.get i := by
  rw [h.upper_eq]
  by_cases hu : P.HasUpper limit i
  · rw [if_pos hu]
    exact mul_le_mul_of_nonneg_right (hx.le_upper i hu) (h.e_pos i).le
  · rw [if_neg hu]
    exact le_of_abs_le (hin i (.inr hu))

end ScaledProgram

/-! ## The first evaluation -/

namespace Run

/-- The run stands at the scaled point and multipliers of `x` and `y`. -/
structure At (r : Run K n m) (S : ScaledProgram K n m) (x : Fin n → K) (y : Fin m → K) : Prop extends
    r.Coherent S where
  primal : ∀ j, r.point.x.get j = x j * S.scaling.dinv.get j
  dual : ∀ i, r.point.y.get i = y i * S.scaling.einv.get i * S.scaling.c

variable {r : Run K n m} {c : Settings K}

theorem At.reportedPrimal_eq (hr : r.At S x y) (h : S.IsScaling P limit) : r.reportedPrimal S = x := by
  funext j
  rw [reportedPrimal, hr.primal, h.dinv_eq, inv_mul_cancel_right₀ (h.d_pos j).ne']

theorem At.activity_eq (hr : r.At S x y) (h : S.IsScaling P limit) (i : Fin m) :
    r.point.Ax.get i = (P.A *ᵥ x) i * S.scaling.e.get i := by
  have hunscaled := hr.toCoherent.mulVec_primal h
  rw [hr.reportedPrimal_eq h] at hunscaled
  rw [congrFun hunscaled i, h.einv_eq, inv_mul_cancel_right₀ (h.e_pos i).ne']

/-- The projection of an exact solution is its activity. -/
theorem At.measure_z (hr : r.At S x y) (h : S.IsScaling P limit) (hx : P.SolvedBy limit x y)
    (hin : S.ActivityInside P limit x) (i : Fin m) : (r.measure S).evaluation.z.get i = r.point.Ax.get i := by
  have hsigma := hr.positive i
  have hunit : 0 < S.scaling.einv.get i * S.scaling.c := by
    rw [h.einv_eq]
    exact mul_pos (inv_pos.mpr (h.e_pos i)) h.c_pos
  have hz : (r.measure S).evaluation.z.get i = Scalar.clamp
      (r.point.Ax.get i + r.point.y.get i / r.newton.penalty.sigma.get i) (S.bmin.get i) (S.bmax.get i) := by
    show (Evaluation.ofPoint S r.point r.newton.penalty.sigma r.newton.penalty.rho).z.get i = _
    rw [Evaluation.get_z, Evaluation.shifted, Vec.get_ofFn]
  rw [hz, hr.dual, mul_assoc, hr.activity_eq h]
  refine Scalar.clamp_add_eq (h.lower_le_activity hx hin i) (h.activity_le_upper hx hin i) (fun hpush => ?_) fun hpush => ?_
  · rw [div_pos_iff_of_pos_right hsigma] at hpush
    obtain ⟨hu, hat⟩ := hx.at_upper i (pos_of_mul_pos_left hpush hunit.le)
    rw [h.upper_eq, if_pos hu, hat]
  · rw [div_lt_iff₀ hsigma, zero_mul] at hpush
    obtain ⟨hl, hat⟩ := hx.at_lower i (neg_of_mul_neg_left hpush hunit.le)
    rw [h.lower_eq, if_pos hl, hat]

/-- The first evaluation reports the solution that the run stands at. -/
theorem At.measure_reports (hr : r.At S x y) (h : S.IsScaling P limit) (hx : P.SolvedBy limit x y)
    (hin : S.ActivityInside P limit x) :
    (r.measure S).reportedPrimal S = x ∧ (r.measure S).reportedDual S = y ∧
      (r.measure S).reportedActivity S = P.A *ᵥ x := by
  have hz := hr.measure_z h hx hin
  refine ⟨hr.reportedPrimal_eq h, ?_, ?_⟩
  · funext i
    have he := (h.e_pos i).ne'
    have hc := h.c_pos.ne'
    have hkept : (r.measure S).evaluation.multiplier.get i = r.point.y.get i := by
      show (Evaluation.ofPoint S r.point r.newton.penalty.sigma r.newton.penalty.rho).multiplier.get i = _
      rw [Evaluation.get_multiplier, Evaluation.get_violation]
      have hzi : (Evaluation.ofPoint S r.point r.newton.penalty.sigma r.newton.penalty.rho).z.get i =
          r.point.Ax.get i := hz i
      rw [hzi, sub_self, mul_zero, add_zero]
    rw [reportedDual, hkept, hr.dual, h.einv_eq]
    field_simp
  · funext i
    rw [reportedActivity, hz, hr.activity_eq h, h.einv_eq, mul_inv_cancel_right₀ (h.e_pos i).ne']

theorem At.measure_residuals (hr : r.At S x y) (h : S.IsScaling P limit) (hx : P.SolvedBy limit x y)
    (hin : S.ActivityInside P limit x) :
    (r.measure S).residuals.primal = 0 ∧ (r.measure S).residuals.dual = 0 := by
  obtain ⟨hprimal, hdual, hactivity⟩ := hr.measure_reports h hx hin
  have hnorms := hr.toCoherent.measured.residual_norms hr.toCoherent.measure h
  rw [hprimal, hdual, hactivity, sub_self, hx.stationary, maxNorm_zero, maxNorm_zero] at hnorms
  exact hnorms

/-- Residuals that vanish pass every test of the solver. -/
theorem Measured.isSolved_of_zero (hm : r.Measured S) (hr : r.Coherent S) (h : S.IsScaling P limit) {epsAbs epsRel : K}
    (habs : 0 ≤ epsAbs) (hrel : 0 ≤ epsRel) (hprimal : r.residuals.primal = 0) (hdual : r.residuals.dual = 0) :
    r.residuals.isSolved epsAbs epsRel = true := by
  obtain ⟨hprimalTol, hdualTol⟩ := hm.tolerances hr h epsAbs epsRel
  rw [Residuals.isSolved, Bool.and_eq_true, decide_eq_true_eq, decide_eq_true_eq, hprimal, hdual, hprimalTol, hdualTol]
  exact ⟨add_nonneg habs (mul_nonneg hrel (le_max_of_le_right (maxNorm_nonneg _))),
    add_nonneg habs (mul_nonneg hrel (le_max_of_le_right (maxNorm_nonneg _)))⟩

theorem At.iterate_eq (hr : r.At S x y) (h : S.IsScaling P limit) (hc : c.validate = .ok ())
    (hx : P.SolvedBy limit x y) (hin : S.ActivityInside P limit x) (expired : Nat → Bool) {passes : Nat}
    (hpasses : 0 < passes) : iterate S c expired passes r = (r.measure S, .solved, []) := by
  obtain ⟨hprimal, hdual⟩ := hr.measure_residuals h hx hin
  exact iterate_of_solved (hr.toCoherent.measured.isSolved_of_zero hr.toCoherent.measure h (Settings.epsAbs_nonneg hc)
    (Settings.epsRel_nonneg hc) hprimal hdual) expired hpasses

/-- The initial factorization of a convex problem leaves the point and the penalties as they are. -/
theorem At.complete_eq (hr : r.At S x y) (h : S.IsScaling P limit) (hc : c.validate = .ok ())
    (hx : P.SolvedBy limit x y) (hin : S.ActivityInside P limit x) (hQ : PosSemidef P.Q) (hsafe : r.newton.Safe S)
    (expired : Nat → Bool) :
    ∃ r' : Run K n m, r'.At S x y ∧ r'.info = r.info ∧
      (r.complete S c expired).1 = r'.measure S ∧ (r.complete S c expired).2.1 = .solved := by
  have hpasses : 0 < passLimit c := Nat.add_pos_right _ (Settings.maxOuterIter_pos hc)
  unfold complete
  split
  · refine ⟨r, hr, rfl, ?_, ?_⟩
    · rw [hr.iterate_eq h hc hx hin expired hpasses]
    · rw [hr.iterate_eq h hc hx hin expired hpasses]
  · have hevaluate : (r.evaluate S).newton.Safe S := hsafe
    have hfactored : Run.At { r.evaluate S with
        newton := ((r.evaluate S).newton.update S (r.evaluate S).evaluation.active c).1 } S x y :=
      { carries := hr.carries, positive := hr.positive, primal := hr.primal, dual := hr.dual }
    refine ⟨_, hfactored, rfl, ?_, ?_⟩
    · simp only [hevaluate.factorInitial_eq (h.posSemidef hQ), hfactored.iterate_eq h hc hx hin expired hpasses]
    · simp only [hevaluate.factorInitial_eq (h.posSemidef hQ), hfactored.iterate_eq h hc hx hin expired hpasses]

end Run

/-! ## Solvers -/

namespace Solver

variable {S : Solver K n m}

/-- The scaled starting point is that of `x` and `y`. -/
structure StartsAt (S : Solver K n m) (x : Fin n → K) (y : Fin m → K) : Prop where
  primal : ∀ j, S.xStart.get j = x j * S.program.scaling.dinv.get j
  dual : ∀ i, S.yStart.get i = y i * S.program.scaling.einv.get i * S.program.scaling.c

theorem finiteVector_ofFn (what : ProblemPart) (v : Fin n → K) :
    finiteVector what n (Array.ofFn v) = .ok (Vector.ofFn v) := by
  have hvector : Vec.ofArray? n (Array.ofFn v) = some (Vector.ofFn v) := by
    rw [Vec.ofArray?, dif_pos Array.size_ofFn]
    rfl
  unfold finiteVector
  simp [hvector, Vec.isFinite]

theorem startsAt_warmStart (S : Solver K n m) (x : Fin n → K) (y : Fin m → K) :
    (S.warmStart (some (Array.ofFn x)) (some (Array.ofFn y))).2 = .ok () ∧
      (S.warmStart (some (Array.ofFn x)) (some (Array.ofFn y))).1.StartsAt x y := by
  unfold Solver.warmStart
  simp only [finiteVector_ofFn, Except.map]
  refine ⟨trivial, fun j => ?_, fun i => ?_⟩
  · rw [Scaling.scalePrimal, Vec.get_hadamard, Vec.get_ofFn]
  · rw [Scaling.scaleDual, Vec.get_scale, Vec.get_hadamard, Vec.get_ofFn]

/-- A solver that starts at an exact solution stops there. -/
theorem exists_run_at (h : S.program.IsScaling P limit) (hc : S.settings.validate = .ok ())
    (hengine : S.engine.Consistent S.program.Q S.program.A) (hQ : PosSemidef P.Q) (hx : P.SolvedBy limit x y)
    (hin : S.program.ActivityInside P limit x) (hstart : S.StartsAt x y) (expired : Nat → Bool) :
    ∃ r : Run K n m, r.At S.program x y ∧ r.info = Info.blank ∧ (S.run expired).2.run = r.measure S.program ∧
      (S.run expired).2.info = finalInfo S.program (r.measure S.program) .solved := by
  have hat : S.start.At S.program x y :=
    { carries := Point.carries_start h.cost_upper h.cost_cols S.xStart S.yStart
      positive := Penalty.positive_initial hc S.rhoFloor
      primal := hstart.primal
      dual := hstart.dual }
  obtain ⟨r, hr, hinfo, hrun, hstatus⟩ := hat.complete_eq h hc hx hin hQ (safe_start hc hengine) expired
  refine ⟨r, hr, hinfo, hrun, ?_⟩
  show finalInfo S.program (S.start.complete S.program S.settings expired).1
    ((S.start.complete S.program S.settings expired).1.reduced S.program S.settings
      (S.start.complete S.program S.settings expired).2.1) = _
  rw [hrun, hstatus]
  rfl

end Solver
end AugLag
