import AugLag.Proofs.Problem.Scaled
import AugLag.Proofs.Solver.Invariant
import AugLag.Solver.Basic

/-!
# Optimality of solutions

The residuals are measured in scaled space. Carried back to the units of the problem, the tests of the solver are
the conditions of optimality of the problem that was posed, up to the tolerances.
-/

namespace AugLag

variable {K : Type} [ExactScalar K] {n m : Nat} {S : ScaledProgram K n m} {P : PosedProblem K n m} {limit : K}

open scoped Matrix

/-- The conditions of optimality for `x`, multipliers `y` and a point `z` between the bounds, up to an absolute
and a relative tolerance on the residuals. -/
structure PosedProblem.Optimal (P : PosedProblem K n m) (limit epsAbs epsRel : K) (x : Fin n → K) (y z : Fin m → K) :
    Prop where
  lower_le : ∀ i, P.HasLower limit i → P.lowerAt limit i ≤ z i
  le_upper : ∀ i, P.HasUpper limit i → z i ≤ P.upperAt limit i
  primal : maxNorm (P.A *ᵥ x - z) ≤ epsAbs + epsRel * max (maxNorm (P.A *ᵥ x)) (maxNorm z)
  dual : maxNorm (P.Q *ᵥ x + P.q + P.Aᵀ *ᵥ y) ≤
    epsAbs + epsRel * max (max (maxNorm (P.Q *ᵥ x)) (maxNorm (P.Aᵀ *ᵥ y))) (maxNorm P.q)
  at_upper : ∀ i, 0 < y i → P.HasUpper limit i → z i = P.upperAt limit i
  at_lower : ∀ i, y i < 0 → P.HasLower limit i → z i = P.lowerAt limit i

namespace ScaledProgram

/-- No finite bound was moved out of the limit by the scaling. -/
def BoundsInside (S : ScaledProgram K n m) : Prop :=
  ∀ i, (S.lowerFinite.get i = true → |S.bmin.get i| < S.limit) ∧ (S.upperFinite.get i = true → |S.bmax.get i| < S.limit)

instance (S : ScaledProgram K n m) : Decidable S.BoundsInside := inferInstanceAs (Decidable (∀ _, _))

theorem IsScaling.lower_le_upper (h : S.IsScaling P limit) (hlimit : 0 < limit) (hin : S.BoundsInside) (i : Fin m) :
    S.bmin.get i ≤ S.bmax.get i := by
  obtain ⟨hlow, hup⟩ := hin i
  rw [h.lowerFinite_eq, decide_eq_true_eq, h.limit_eq] at hlow
  rw [h.upperFinite_eq, decide_eq_true_eq, h.limit_eq] at hup
  by_cases hl : P.HasLower limit i
  · by_cases hu : P.HasUpper limit i
    · rw [h.lower_eq, h.upper_eq, if_pos hl, if_pos hu]
      exact mul_le_mul_of_nonneg_right (h.consistent i) (h.e_pos i).le
    · rw [h.upper_eq i, if_neg hu]
      exact ((le_abs_self _).trans_lt (hlow hl)).le
  · rw [h.lower_eq i, if_neg hl]
    by_cases hu : P.HasUpper limit i
    · exact (neg_lt_of_abs_lt (hup hu)).le
    · rw [h.upper_eq i, if_neg hu]
      linarith

end ScaledProgram

namespace Evaluation

variable {p : Point K n m} {sigma : Vector K m} {rho : K}

theorem get_z (i : Fin m) : (ofPoint S p sigma rho).z.get i =
    Scalar.clamp ((shifted p sigma).get i) (S.bmin.get i) (S.bmax.get i) := by
  rw [ofPoint, Vec.get_ofFn]

theorem get_violation (i : Fin m) :
    (ofPoint S p sigma rho).violation.get i = p.Ax.get i - (ofPoint S p sigma rho).z.get i :=
  Vec.get_zipWith _ _ _ i

theorem get_multiplier (i : Fin m) : (ofPoint S p sigma rho).multiplier.get i =
    p.y.get i + sigma.get i * (ofPoint S p sigma rho).violation.get i := by
  rw [ofPoint, Vec.get_ofFn]

theorem get_force (j : Fin n) : (ofPoint S p sigma rho).force.get j =
    ((S.A.toMatrix m n)ᵀ *ᵥ (ofPoint S p sigma rho).multiplier.get) j :=
  congrFun (get_adjointMulAdd_one S.A _) j

theorem get_stationarity (j : Fin n) : (ofPoint S p sigma rho).stationarity.get j =
    p.Qx.get j + S.q.get j + (ofPoint S p sigma rho).force.get j := by
  rw [ofPoint, Vec.get_ofFn]

theorem le_z {i : Fin m} (hle : S.bmin.get i ≤ S.bmax.get i) : S.bmin.get i ≤ (ofPoint S p sigma rho).z.get i := by
  rw [get_z]
  exact Scalar.le_clamp hle

theorem z_le {i : Fin m} (hle : S.bmin.get i ≤ S.bmax.get i) : (ofPoint S p sigma rho).z.get i ≤ S.bmax.get i := by
  rw [get_z]
  exact Scalar.clamp_le hle

/-- The next multiplier of a row is its penalty times the distance from `A x + y / σ` to its projection. -/
theorem multiplier_eq (hsigma : ∀ i, 0 < sigma.get i) (i : Fin m) : (ofPoint S p sigma rho).multiplier.get i =
    sigma.get i * ((shifted p sigma).get i - (ofPoint S p sigma rho).z.get i) := by
  have hne := (hsigma i).ne'
  rw [get_multiplier, get_violation, shifted, Vec.get_ofFn]
  field_simp
  ring

theorem z_of_multiplier_pos (hsigma : ∀ i, 0 < sigma.get i) {i : Fin m}
    (h : 0 < (ofPoint S p sigma rho).multiplier.get i) : (ofPoint S p sigma rho).z.get i = S.bmax.get i := by
  rw [multiplier_eq hsigma, get_z] at h
  rw [get_z]
  exact Scalar.clamp_eq_of_clamp_lt (sub_pos.mp (pos_of_mul_pos_right h (hsigma i).le))

theorem z_of_multiplier_neg (hsigma : ∀ i, 0 < sigma.get i) {i : Fin m}
    (h : (ofPoint S p sigma rho).multiplier.get i < 0) : (ofPoint S p sigma rho).z.get i = S.bmin.get i := by
  rw [multiplier_eq hsigma, get_z] at h
  rw [get_z]
  exact Scalar.clamp_eq_of_lt_clamp (sub_neg.mp (neg_of_mul_neg_right h (hsigma i).le))

end Evaluation

namespace Run

variable {r : Run K n m} {c : Settings K}

/-- The reported solution, as functions of the indices. -/
def reportedPrimal (r : Run K n m) (S : ScaledProgram K n m) (j : Fin n) : K := r.point.x.get j * S.scaling.d.get j

def reportedDual (r : Run K n m) (S : ScaledProgram K n m) (i : Fin m) : K :=
  r.evaluation.multiplier.get i * S.scaling.e.get i * S.scaling.c⁻¹

/-- The point between the bounds that belongs to the reported solution. -/
def reportedActivity (r : Run K n m) (S : ScaledProgram K n m) (i : Fin m) : K :=
  r.evaluation.z.get i * S.scaling.einv.get i

/-! ## Unscaled quantities -/

/-- The products of the reported solution are the unscaled products of the run. -/
theorem Coherent.mulVec_primal (hr : r.Coherent S) (h : S.IsScaling P limit) :
    P.A *ᵥ r.reportedPrimal S = fun i => r.point.Ax.get i * S.scaling.einv.get i := by
  rw [hr.carries.Ax_eq, ← h.mulVec_constraints]
  rfl

theorem Coherent.cost_primal (hr : r.Coherent S) (h : S.IsScaling P limit) :
    P.Q *ᵥ r.reportedPrimal S = fun j => r.point.Qx.get j * S.scaling.dinv.get j * S.scaling.c⁻¹ := by
  rw [hr.carries.Qx_eq, ← h.mulVec_cost]
  rfl

theorem reportedDual_eq_smul (r : Run K n m) (S : ScaledProgram K n m) :
    r.reportedDual S = S.scaling.c⁻¹ • fun i => r.evaluation.multiplier.get i * S.scaling.e.get i :=
  funext fun _ => mul_comm _ _

theorem Measured.force_dual (hm : r.Measured S) (h : S.IsScaling P limit) :
    P.Aᵀ *ᵥ r.reportedDual S = fun j => r.evaluation.force.get j * S.scaling.dinv.get j * S.scaling.c⁻¹ := by
  obtain ⟨y, sigma, center, rho, -, heval, -⟩ := hm
  rw [reportedDual_eq_smul, Matrix.mulVec_smul, h.mulVec_transpose, heval]
  funext j
  rw [Evaluation.get_force, Pi.smul_apply, smul_eq_mul, mul_comm]

theorem linear_unscaled_eq (h : S.IsScaling P limit) :
    P.q = fun j => S.q.get j * S.scaling.dinv.get j * S.scaling.c⁻¹ :=
  funext fun j => (h.linear_unscaled j).symm

theorem Measured.violation_eq (hm : r.Measured S) (hr : r.Coherent S) (h : S.IsScaling P limit) :
    P.A *ᵥ r.reportedPrimal S - r.reportedActivity S =
      fun i => r.evaluation.violation.get i * S.scaling.einv.get i := by
  obtain ⟨y, sigma, center, rho, -, heval, -⟩ := hm
  funext i
  rw [Pi.sub_apply, hr.mulVec_primal h, reportedActivity, heval, Evaluation.get_violation, sub_mul]

theorem Measured.stationarity_eq (hm : r.Measured S) (hr : r.Coherent S) (h : S.IsScaling P limit) :
    P.Q *ᵥ r.reportedPrimal S + P.q + P.Aᵀ *ᵥ r.reportedDual S =
      fun j => r.evaluation.stationarity.get j * S.scaling.dinv.get j * S.scaling.c⁻¹ := by
  have hforce := hm.force_dual h
  obtain ⟨y, sigma, center, rho, -, heval, -⟩ := hm
  funext j
  rw [Pi.add_apply, Pi.add_apply, hr.cost_primal h, hforce, linear_unscaled_eq h, heval, Evaluation.get_stationarity]
  ring

/-- What is measured are the residuals of the reported solution in the units of the problem. -/
theorem Measured.residual_norms (hm : r.Measured S) (hr : r.Coherent S) (h : S.IsScaling P limit) :
    r.residuals.primal = maxNorm (P.A *ᵥ r.reportedPrimal S - r.reportedActivity S) ∧
      r.residuals.dual = maxNorm (P.Q *ᵥ r.reportedPrimal S + P.q + P.Aᵀ *ᵥ r.reportedDual S) := by
  have hcinv : 0 ≤ S.scaling.c⁻¹ := (inv_pos.mpr h.c_pos).le
  rw [hm.violation_eq hr h, hm.stationarity_eq hr h]
  obtain ⟨y, sigma, center, rho, -, -, hres⟩ := hm
  simp only [hres, Residuals.ofPoint, Scalar.recip_eq_inv, Vec.normInfScaled_eq_maxNorm, maxNorm_mul_right _ hcinv,
    and_self]

/-- The tolerances, too, are those of the reported solution. -/
theorem Measured.tolerances (hm : r.Measured S) (hr : r.Coherent S) (h : S.IsScaling P limit) (epsAbs epsRel : K) :
    r.residuals.primalTolerance epsAbs epsRel =
        epsAbs + epsRel * max (maxNorm (P.A *ᵥ r.reportedPrimal S)) (maxNorm (r.reportedActivity S)) ∧
      r.residuals.dualTolerance epsAbs epsRel =
        epsAbs + epsRel * max (max (maxNorm (P.Q *ᵥ r.reportedPrimal S)) (maxNorm (P.Aᵀ *ᵥ r.reportedDual S)))
          (maxNorm P.q) := by
  have hcinv : 0 ≤ S.scaling.c⁻¹ := (inv_pos.mpr h.c_pos).le
  have hactivity : r.reportedActivity S = fun i => r.evaluation.z.get i * S.scaling.einv.get i := rfl
  rw [hr.mulVec_primal h, hr.cost_primal h, hm.force_dual h, linear_unscaled_eq h, hactivity]
  obtain ⟨y, sigma, center, rho, -, -, hres⟩ := hm
  simp only [hres, Residuals.primalTolerance, Residuals.dualTolerance, Residuals.ofPoint, Scalar.recip_eq_inv,
    Vec.normInfScaled_eq_maxNorm, maxNorm_mul_right _ hcinv, Scalar.max_eq_max, and_self]

/-! ## Optimality -/

/-- At a finite bound, `z` and the bound are scaled by the same factor. -/
theorem reportedActivity_eq_iff (h : S.IsScaling P limit) (i : Fin m) {b : K} :
    r.reportedActivity S i = b ↔ r.evaluation.z.get i = b * S.scaling.e.get i := by
  rw [reportedActivity, h.einv_eq, ← div_eq_mul_inv, div_eq_iff (h.e_pos i).ne']

theorem dual_factor_pos (h : S.IsScaling P limit) (i : Fin m) : 0 < S.scaling.e.get i * S.scaling.c⁻¹ :=
  mul_pos (h.e_pos i) (inv_pos.mpr h.c_pos)

/-- A multiplier that pushes upwards does so at the upper bound. -/
theorem Measured.activity_at_upper (hm : r.Measured S) (h : S.IsScaling P limit) {i : Fin m}
    (hy : 0 < r.reportedDual S i) (hi : P.HasUpper limit i) : r.reportedActivity S i = P.upperAt limit i := by
  obtain ⟨y, sigma, center, rho, hsigma, heval, -⟩ := hm
  rw [reportedDual, mul_assoc] at hy
  have hpos := pos_of_mul_pos_left hy (dual_factor_pos h i).le
  rw [heval] at hpos
  have hz := Evaluation.z_of_multiplier_pos hsigma hpos
  rw [← heval, h.upper_eq, if_pos hi] at hz
  exact (reportedActivity_eq_iff h i).mpr hz

theorem Measured.activity_at_lower (hm : r.Measured S) (h : S.IsScaling P limit) {i : Fin m}
    (hy : r.reportedDual S i < 0) (hi : P.HasLower limit i) : r.reportedActivity S i = P.lowerAt limit i := by
  obtain ⟨y, sigma, center, rho, hsigma, heval, -⟩ := hm
  rw [reportedDual, mul_assoc] at hy
  have hneg := neg_of_mul_neg_left hy (dual_factor_pos h i).le
  rw [heval] at hneg
  have hz := Evaluation.z_of_multiplier_neg hsigma hneg
  rw [← heval, h.lower_eq, if_pos hi] at hz
  exact (reportedActivity_eq_iff h i).mpr hz

/-- Residuals within the tolerances are those of an optimal solution. -/
theorem Measured.optimal (hm : r.Measured S) (hr : r.Coherent S) (h : S.IsScaling P limit) (hlimit : 0 < limit)
    (hin : S.BoundsInside) {epsAbs epsRel : K} (hsolved : r.residuals.isSolved epsAbs epsRel = true) :
    P.Optimal limit epsAbs epsRel (r.reportedPrimal S) (r.reportedDual S) (r.reportedActivity S) := by
  obtain ⟨hprimal, hdual⟩ := hm.residual_norms hr h
  obtain ⟨hprimalTol, hdualTol⟩ := hm.tolerances hr h epsAbs epsRel
  rw [Residuals.isSolved, Bool.and_eq_true, decide_eq_true_eq, decide_eq_true_eq, hprimal, hdual, hprimalTol,
    hdualTol] at hsolved
  refine { lower_le := fun i hi => ?_, le_upper := fun i hi => ?_, primal := hsolved.1, dual := hsolved.2,
           at_upper := fun i hy hi => hm.activity_at_upper h hy hi,
           at_lower := fun i hy hi => hm.activity_at_lower h hy hi }
  · obtain ⟨y, sigma, center, rho, -, heval, -⟩ := hm
    have hz : S.bmin.get i ≤ r.evaluation.z.get i := by
      rw [heval]
      exact Evaluation.le_z (h.lower_le_upper hlimit hin i)
    rw [h.lower_eq, if_pos hi] at hz
    rwa [reportedActivity, h.einv_eq, le_mul_inv_iff₀ (h.e_pos i)]
  · obtain ⟨y, sigma, center, rho, -, heval, -⟩ := hm
    have hz : r.evaluation.z.get i ≤ S.bmax.get i := by
      rw [heval]
      exact Evaluation.z_le (h.lower_le_upper hlimit hin i)
    rw [h.upper_eq, if_pos hi] at hz
    rwa [reportedActivity, h.einv_eq, mul_inv_le_iff₀ (h.e_pos i)]

end Run
end AugLag
