import AugLag.Proofs.Solver.Optimality

/-!
# Certificates of infeasibility

A change of the multipliers that passes the test for primal infeasibility is, in the units of the problem and at
unit norm, an approximate certificate that no point is feasible. A step that passes the test for dual
infeasibility is one that the cost is not bounded from below.
-/

namespace AugLag

variable {K : Type} [ExactScalar K] {n m : Nat} {S : ScaledProgram K n m} {P : PosedProblem K n m} {limit eps : K}

open scoped Matrix

namespace PosedProblem

/-- The sum of the finite bounds along `v`: upper bounds where `v` is positive, lower bounds where it is negative. -/
def support (P : PosedProblem K n m) (limit : K) (v : Fin m → K) : K :=
  (∑ i, if 0 < v i ∧ P.HasUpper limit i then P.upperAt limit i * v i else 0) +
    ∑ i, if v i < 0 ∧ P.HasLower limit i then P.lowerAt limit i * v i else 0

/-- The vector `v` shows up to a tolerance that no point is feasible. -/
structure PrimalCertificate (P : PosedProblem K n m) (limit eps : K) (v : Fin m → K) : Prop where
  unit : maxNorm v = 1
  force : maxNorm (P.Aᵀ *ᵥ v) ≤ eps
  support : P.support limit v ≤ -eps
  no_upper : ∀ i, ¬P.HasUpper limit i → v i ≤ eps
  no_lower : ∀ i, ¬P.HasLower limit i → -eps ≤ v i

/-- The direction `w` shows up to a tolerance that the cost is not bounded from below. -/
structure DualCertificate (P : PosedProblem K n m) (limit eps : K) (w : Fin n → K) : Prop where
  unit : maxNorm w = 1
  curvature : maxNorm (P.Q *ᵥ w) ≤ eps
  slope : P.q ⬝ᵥ w ≤ -eps
  lower : ∀ i, P.HasLower limit i → -eps ≤ (P.A *ᵥ w) i
  upper : ∀ i, P.HasUpper limit i → (P.A *ᵥ w) i ≤ eps

end PosedProblem

/-! ## Normalization -/

namespace Outcome

theorem get_normalized {v : Vector K n} (h : 0 < maxNorm v.get) :
    (normalized v).get = (maxNorm v.get)⁻¹ • v.get := by
  funext i
  rw [normalized, Vec.normInf_eq_maxNorm, if_pos h, Vec.get_scale, Scalar.recip_eq_inv, Pi.smul_apply, smul_eq_mul,
    mul_comm]

theorem maxNorm_smul_inv {v : Fin n → K} (h : 0 < maxNorm v) : maxNorm ((maxNorm v)⁻¹ • v) = 1 :=
  (maxNorm_mul_left (inv_pos.mpr h).le v).trans (inv_mul_cancel₀ h.ne')

end Outcome

theorem get_hadamard_eq (v w : Vector K n) : (Vec.hadamard v w).get = fun i => v.get i * w.get i :=
  funext fun i => Vec.get_hadamard v w i

namespace ScaledProgram

theorem foldl_ite_add {β : Type} (l : List β) (step : K → β → K) (g : β → K) (hstep : ∀ a b, step a b = a + g b)
    (a : K) : l.foldl step a = a + (l.map g).sum := by
  rw [show step = fun a b => a + g b from funext fun a => funext fun b => hstep a b]
  exact SparseMatrix.foldl_add_eq_sum l g a

/-- What row `i` adds to the support of `y`. -/
def pushed (S : ScaledProgram K n m) (y : Vector K m) (i : Fin m) : K :=
  if 0 < y.get i then (if S.upperFinite.get i then S.bmax.get i * y.get i else 0)
  else if y.get i < 0 then (if S.lowerFinite.get i then S.bmin.get i * y.get i else 0)
  else 0

theorem support_eq_sum (S : ScaledProgram K n m) (y : Vector K m) : S.support y = ∑ i, S.pushed y i := by
  unfold support
  rw [foldl_ite_add _ _ (S.pushed y), zero_add, SparseMatrix.sum_map_finRange]
  intro a i
  unfold pushed
  split_ifs <;> simp

/-- The support of the scaled bounds is that of the bounds along the unscaled multipliers. -/
theorem IsScaling.support_eq (h : S.IsScaling P limit) (dy : Vector K m) :
    S.support dy = P.support limit fun i => dy.get i * S.scaling.e.get i := by
  have hpos (i : Fin m) : 0 < dy.get i * S.scaling.e.get i ↔ 0 < dy.get i := mul_pos_iff_of_pos_right (h.e_pos i)
  have hneg (i : Fin m) : dy.get i * S.scaling.e.get i < 0 ↔ dy.get i < 0 := by
    rw [mul_comm]
    exact smul_neg_iff_of_pos_left (h.e_pos i)
  rw [support_eq_sum, PosedProblem.support, ← Finset.sum_add_distrib]
  refine Finset.sum_congr rfl fun i _ => ?_
  simp only [pushed, hpos, hneg, h.upperFinite_eq, h.lowerFinite_eq, decide_eq_true_eq, h.upper_eq, h.lower_eq]
  by_cases hp : 0 < dy.get i
  · by_cases hu : P.HasUpper limit i
    · simp only [hp, hu, hp.asymm, and_self, false_and, if_true, if_false, add_zero]
      ring
    · simp [hp, hu, hp.asymm]
  · by_cases hn : dy.get i < 0
    · by_cases hl : P.HasLower limit i
      · simp only [hp, hn, hl, and_self, false_and, if_true, if_false, zero_add]
        ring
      · simp [hp, hn, hl]
    · simp [hp, hn]

theorem support_smul (P : PosedProblem K n m) (limit : K) {u : K} (hu : 0 < u) (v : Fin m → K) :
    P.support limit (u • v) = u * P.support limit v := by
  have hneg (i : Fin m) : u * v i < 0 ↔ v i < 0 := smul_neg_iff_of_pos_left hu
  unfold PosedProblem.support
  rw [mul_add, Finset.mul_sum, Finset.mul_sum]
  simp only [Pi.smul_apply, smul_eq_mul, mul_pos_iff_of_pos_left hu, hneg, mul_ite, mul_zero, mul_left_comm u]

/-- A multiplier does not push against absent bounds by more than a tolerance, in the units of the problem. -/
theorem IsScaling.pushesOnlyFinite_iff (h : S.IsScaling P limit) (dy : Vector K m) {tol : K} (htol : 0 ≤ tol)
    (i : Fin m) : S.pushesOnlyFinite dy tol i = true ↔
      (¬P.HasUpper limit i → (Vec.hadamard dy S.scaling.e).get i ≤ tol) ∧
        (¬P.HasLower limit i → -tol ≤ (Vec.hadamard dy S.scaling.e).get i) := by
  have he := h.e_pos i
  rw [pushesOnlyFinite, h.upperFinite_eq, h.lowerFinite_eq, Vec.get_hadamard, mul_comm (S.scaling.e.get i),
    neg_mul, mul_comm (S.scaling.e.get i), neg_le]
  by_cases hp : 0 < dy.get i
  · have hup := mul_pos hp he
    have hlow : -(dy.get i * S.scaling.e.get i) ≤ tol := (neg_nonpos.mpr hup.le).trans htol
    simp [hp, hlow, imp_iff_or_not, or_comm]
  · have hup := mul_nonpos_of_nonpos_of_nonneg (not_lt.mp hp) he.le
    by_cases hn : dy.get i < 0
    · simp [hp, hn, hup.trans htol, imp_iff_or_not, or_comm]
    · have hlow := neg_nonpos.mpr (mul_nonneg (not_lt.mp hn) he.le)
      simp [hp, hn, hup.trans htol, hlow.trans htol]

/-- The test for primal infeasibility in the units of the problem. -/
theorem IsScaling.isPrimalInfeasible_iff (h : S.IsScaling P limit) (heps : 0 ≤ eps) (dy : Vector K m) :
    S.isPrimalInfeasible dy eps = true ↔ maxNorm (Vec.hadamard dy S.scaling.e).get ≠ 0 ∧
      maxNorm (P.Aᵀ *ᵥ (Vec.hadamard dy S.scaling.e).get) ≤ eps * maxNorm (Vec.hadamard dy S.scaling.e).get ∧
        (∀ i, (¬P.HasUpper limit i →
            (Vec.hadamard dy S.scaling.e).get i ≤ eps * maxNorm (Vec.hadamard dy S.scaling.e).get) ∧
          (¬P.HasLower limit i →
            -(eps * maxNorm (Vec.hadamard dy S.scaling.e).get) ≤ (Vec.hadamard dy S.scaling.e).get i)) ∧
          P.support limit (Vec.hadamard dy S.scaling.e).get ≤
            -(eps * maxNorm (Vec.hadamard dy S.scaling.e).get) := by
  have htol : 0 ≤ eps * maxNorm (Vec.hadamard dy S.scaling.e).get := mul_nonneg heps (maxNorm_nonneg _)
  simp only [isPrimalInfeasible, Scalar.isFinite_eq_true, Bool.and_true, Vec.normInfScaled_eq_maxNorm,
    Bool.and_eq_true, Bool.not_eq_true', beq_eq_false_iff_ne, ne_eq, decide_eq_false_iff_not, not_lt,
    List.all_eq_true, List.mem_finRange, forall_const, decide_eq_true_eq, get_adjointMulAdd_one,
    ← h.mulVec_transpose, h.support_eq, ← get_hadamard_eq, and_assoc, h.pushesOnlyFinite_iff dy htol]

/-- A multiplier that passes the test for primal infeasibility is a certificate, once it is unscaled. -/
theorem IsScaling.primalCertificate (h : S.IsScaling P limit) (heps : 0 ≤ eps) {dy : Vector K m}
    (hdy : S.isPrimalInfeasible dy eps = true) :
    P.PrimalCertificate limit eps (Outcome.normalized (Vec.hadamard dy S.scaling.e)).get := by
  obtain ⟨hne, hforce, hpush, hsupport⟩ := (h.isPrimalInfeasible_iff heps dy).mp hdy
  have hpos : 0 < maxNorm (Vec.hadamard dy S.scaling.e).get := (maxNorm_nonneg _).lt_of_ne' hne
  have hinv := inv_pos.mpr hpos
  rw [Outcome.get_normalized hpos]
  refine { unit := Outcome.maxNorm_smul_inv hpos, force := ?_, support := ?_, no_upper := fun i hi => ?_,
           no_lower := fun i hi => ?_ }
  · rw [Matrix.mulVec_smul]
    refine (maxNorm_mul_left hinv.le _).trans_le ?_
    rwa [inv_mul_le_iff₀ hpos, mul_comm]
  · rw [support_smul P limit hinv, inv_mul_le_iff₀ hpos, mul_neg, mul_comm]
    exact hsupport
  · rw [Pi.smul_apply, smul_eq_mul, inv_mul_le_iff₀ hpos, mul_comm (maxNorm _)]
    exact (hpush i).1 hi
  · rw [Pi.smul_apply, smul_eq_mul, le_inv_mul_iff₀ hpos, mul_neg, mul_comm (maxNorm _)]
    exact (hpush i).2 hi

/-- The test for dual infeasibility in the units of the problem. -/
theorem IsScaling.isDualInfeasible_iff (h : S.IsScaling P limit) {dx Qdx : Vector K n} {Adx : Vector K m}
    (hAdx : Adx.get = S.A.toMatrix m n *ᵥ dx.get) (hQdx : Qdx.get = S.Q.symMatrix n *ᵥ dx.get) (eps : K) :
    S.isDualInfeasible dx Qdx Adx eps = true ↔ maxNorm (Vec.hadamard dx S.scaling.d).get ≠ 0 ∧
      maxNorm (P.Q *ᵥ (Vec.hadamard dx S.scaling.d).get) ≤ eps * maxNorm (Vec.hadamard dx S.scaling.d).get ∧
        P.q ⬝ᵥ (Vec.hadamard dx S.scaling.d).get ≤ -(eps * maxNorm (Vec.hadamard dx S.scaling.d).get) ∧
          ∀ i, (¬P.HasLower limit i ∨ -(eps * maxNorm (Vec.hadamard dx S.scaling.d).get) ≤
              (P.A *ᵥ (Vec.hadamard dx S.scaling.d).get) i) ∧
            (¬P.HasUpper limit i ∨
              (P.A *ᵥ (Vec.hadamard dx S.scaling.d).get) i ≤ eps * maxNorm (Vec.hadamard dx S.scaling.d).get) := by
  have hcinv : 0 ≤ S.scaling.c⁻¹ := (inv_pos.mpr h.c_pos).le
  have hslope : Vec.dot S.q dx * S.scaling.c⁻¹ = P.q ⬝ᵥ (Vec.hadamard dx S.scaling.d).get := by
    rw [get_hadamard_eq, h.dot_linear]
  have hrow (i : Fin m) : Adx.get i * S.scaling.einv.get i = (P.A *ᵥ (Vec.hadamard dx S.scaling.d).get) i := by
    rw [get_hadamard_eq, h.mulVec_constraints, hAdx]
  simp only [isDualInfeasible, Scalar.isFinite_eq_true, Bool.and_true, Vec.normInfScaled_eq_maxNorm,
    Bool.and_eq_true, Bool.not_eq_true', beq_eq_false_iff_ne, ne_eq, decide_eq_false_iff_not, not_lt,
    List.all_eq_true, List.mem_finRange, forall_const, decide_eq_true_eq, Scalar.recip_eq_inv, hslope, hrow,
    maxNorm_mul_right _ hcinv, hQdx, ← h.mulVec_cost, Bool.or_eq_true, h.lowerFinite_eq, h.upperFinite_eq,
    ← get_hadamard_eq, and_assoc]

/-- A step that passes the test for dual infeasibility is a certificate, once it is unscaled. -/
theorem IsScaling.dualCertificate (h : S.IsScaling P limit) {dx Qdx : Vector K n} {Adx : Vector K m}
    (hAdx : Adx.get = S.A.toMatrix m n *ᵥ dx.get) (hQdx : Qdx.get = S.Q.symMatrix n *ᵥ dx.get)
    (hdx : S.isDualInfeasible dx Qdx Adx eps = true) :
    P.DualCertificate limit eps (Outcome.normalized (Vec.hadamard dx S.scaling.d)).get := by
  obtain ⟨hne, hcurvature, hfall, hallowed⟩ := (h.isDualInfeasible_iff hAdx hQdx eps).mp hdx
  have hpos : 0 < maxNorm (Vec.hadamard dx S.scaling.d).get := (maxNorm_nonneg _).lt_of_ne' hne
  have hinv := inv_pos.mpr hpos
  rw [Outcome.get_normalized hpos]
  refine { unit := Outcome.maxNorm_smul_inv hpos, curvature := ?_, slope := ?_, lower := fun i hi => ?_,
           upper := fun i hi => ?_ }
  · rw [Matrix.mulVec_smul]
    refine (maxNorm_mul_left hinv.le _).trans_le ?_
    rwa [inv_mul_le_iff₀ hpos, mul_comm]
  · rw [dotProduct_smul, smul_eq_mul, inv_mul_le_iff₀ hpos, mul_neg, mul_comm]
    exact hfall
  · rcases (hallowed i).1 with habsent | hle
    · exact absurd hi habsent
    · rw [Matrix.mulVec_smul, Pi.smul_apply, smul_eq_mul, le_inv_mul_iff₀ hpos, mul_neg, mul_comm]
      exact hle
  · rcases (hallowed i).2 with habsent | hle
    · exact absurd hi habsent
    · rw [Matrix.mulVec_smul, Pi.smul_apply, smul_eq_mul, inv_mul_le_iff₀ hpos, mul_comm]
      exact hle

end ScaledProgram
end AugLag
