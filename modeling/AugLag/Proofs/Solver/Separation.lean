import AugLag.Proofs.Factor.Columns
import AugLag.Proofs.Solver.Duality

/-!
# Strict certificates

A multiplier that separates the bounds strictly leaves no feasible point, and a direction along which the cost falls, with
nothing to stop it, leaves it without a lower bound. At a positive tolerance the tests of the solver are strict. At the
tolerance zero they are not: they also pass where the bounds, or the cost, are level.
-/

namespace AugLag

variable {K : Type} [ExactScalar K] {n m : Nat}

open scoped Matrix

theorem maxNorm_le_zero_iff {v : Fin n → K} : maxNorm v ≤ 0 ↔ v = 0 := by
  rw [maxNorm_le_iff, funext_iff]
  simp

theorem maxNorm_eq_zero_iff {v : Fin n → K} : maxNorm v = 0 ↔ v = 0 := by
  rw [← maxNorm_le_zero_iff]
  exact ⟨fun h => h.le, fun h => le_antisymm h (maxNorm_nonneg v)⟩

namespace PosedProblem

variable {P : PosedProblem K n m} {limit : K}

/-- The point `x` satisfies all bounds that are present. -/
structure Feasible (P : PosedProblem K n m) (limit : K) (x : Fin n → K) : Prop where
  lower_le : ∀ i, P.HasLower limit i → P.lowerAt limit i ≤ (P.A *ᵥ x) i
  le_upper : ∀ i, P.HasUpper limit i → (P.A *ᵥ x) i ≤ P.upperAt limit i

/-! ## Separation -/

/-- The multiplier `v` vanishes on the range of the constraints, and does not push against an absent bound. -/
structure Separates (P : PosedProblem K n m) (limit : K) (v : Fin m → K) : Prop extends P.PushesPresent limit v where
  force : P.Aᵀ *ᵥ v = 0

/-- The support bounds the product with every feasible activity. -/
theorem PushesPresent.dotProduct_le {v : Fin m → K} (hv : P.PushesPresent limit v) {x : Fin n → K}
    (hx : P.Feasible limit x) : v ⬝ᵥ P.A *ᵥ x ≤ P.support limit v := by
  rw [support, ← Finset.sum_add_distrib, dotProduct]
  refine Finset.sum_le_sum fun i _ => ?_
  rcases lt_trichotomy (v i) 0 with hneg | hzero | hpos
  · have hi : P.HasLower limit i := not_not.mp fun habsent => hneg.not_ge (hv.no_lower i habsent)
    rw [if_neg fun hp => hneg.asymm hp.1, if_pos ⟨hneg, hi⟩, zero_add, mul_comm]
    exact mul_le_mul_of_nonpos_right (hx.lower_le i hi) hneg.le
  · simp [hzero]
  · have hi : P.HasUpper limit i := not_not.mp fun habsent => hpos.not_ge (hv.no_upper i habsent)
    rw [if_pos ⟨hpos, hi⟩, if_neg fun hn => hpos.asymm hn.1, add_zero, mul_comm]
    exact mul_le_mul_of_nonneg_right (hx.le_upper i hi) hpos.le

/-- A strict separation leaves no feasible point. -/
theorem Separates.not_feasible {v : Fin m → K} (hv : P.Separates limit v) (hneg : P.support limit v < 0)
    (x : Fin n → K) : ¬P.Feasible limit x := by
  intro hx
  have hzero : v ⬝ᵥ P.A *ᵥ x = 0 := by
    rw [← Matrix.dotProduct_transpose_mulVec, hv.force, dotProduct_zero]
  exact (hzero.symm.trans_le (hv.toPushesPresent.dotProduct_le hx)).not_gt hneg

/-! ## Recession -/

/-- The direction `d` has no curvature, and stays within the bounds without end. -/
structure Recedes (P : PosedProblem K n m) (limit : K) (d : Fin n → K) : Prop where
  curvature : P.Q *ᵥ d = 0
  lower : ∀ i, P.HasLower limit i → 0 ≤ (P.A *ᵥ d) i
  upper : ∀ i, P.HasUpper limit i → (P.A *ᵥ d) i ≤ 0

variable {d x : Fin n → K} {t : K}

theorem Recedes.feasible (hd : P.Recedes limit d) (hx : P.Feasible limit x) (ht : 0 ≤ t) :
    P.Feasible limit (x + t • d) := by
  have hrow (i : Fin m) : (P.A *ᵥ (x + t • d)) i = (P.A *ᵥ x) i + t * (P.A *ᵥ d) i := by
    rw [Matrix.mulVec_add, Matrix.mulVec_smul]
    rfl
  refine { lower_le := fun i hi => ?_, le_upper := fun i hi => ?_ }
  · rw [hrow]
    exact (hx.lower_le i hi).trans (le_add_of_nonneg_right (mul_nonneg ht (hd.lower i hi)))
  · rw [hrow]
    exact (add_le_of_nonpos_right (mul_nonpos_of_nonneg_of_nonpos ht (hd.upper i hi))).trans (hx.le_upper i hi)

theorem Recedes.objective_eq (hd : P.Recedes limit d) (hQ : P.Qᵀ = P.Q) :
    P.objective (x + t • d) = P.objective x + t * (P.q ⬝ᵥ d) := by
  have hcross : d ⬝ᵥ P.Q *ᵥ x = 0 := by
    rw [← hQ, Matrix.dotProduct_transpose_mulVec, hd.curvature, dotProduct_zero]
  rw [objective, objective, Matrix.mulVec_add, Matrix.mulVec_smul, hd.curvature, smul_zero, add_zero, add_dotProduct,
    smul_dotProduct, hcross, dotProduct_add, dotProduct_smul, smul_zero, smul_eq_mul]
  ring

/-- A direction of recession along which the cost falls leaves it without a lower bound. -/
theorem Recedes.unbounded (hd : P.Recedes limit d) (hQ : P.Qᵀ = P.Q) (hslope : P.q ⬝ᵥ d < 0)
    (hx : P.Feasible limit x) (b : K) : ∃ x', P.Feasible limit x' ∧ P.objective x' < b := by
  let t := max 0 ((P.objective x - b + 1) / -(P.q ⬝ᵥ d))
  have hfar : P.objective x - b + 1 ≤ t * -(P.q ⬝ᵥ d) :=
    (div_le_iff₀ (neg_pos.mpr hslope)).mp (le_max_right _ _)
  refine ⟨x + t • d, hd.feasible hx (le_max_left _ _), ?_⟩
  rw [hd.objective_eq hQ]
  linarith

end PosedProblem

theorem SparseMatrix.transpose_symMatrix (M : SparseMatrix K) (n : Nat) : (M.symMatrix n)ᵀ = M.symMatrix n := by
  ext i j
  exact sym_comm M j i

/-! ## Tests -/

namespace ScaledProgram

variable {S : ScaledProgram K n m} {P : PosedProblem K n m} {limit eps : K}

/-- The cost that is posed is symmetric. -/
theorem IsScaling.transpose_cost (h : S.IsScaling P limit) : P.Qᵀ = P.Q := by
  ext i j
  have hfactor : S.scaling.c * S.scaling.d.get i * S.scaling.d.get j ≠ 0 :=
    (mul_pos (mul_pos h.c_pos (h.d_pos i)) (h.d_pos j)).ne'
  have hsym := congrFun (congrFun (S.Q.transpose_symMatrix n) i) j
  rw [Matrix.transpose_apply, h.cost_eq, h.cost_eq] at hsym
  exact mul_left_cancel₀ hfactor (by rw [Matrix.transpose_apply]; linear_combination hsym)

/-- At a positive tolerance the test for primal infeasibility is strict. -/
theorem IsScaling.support_neg (h : S.IsScaling P limit) (heps : 0 < eps) {dy : Vector K m}
    (hdy : S.isPrimalInfeasible dy eps = true) : S.support dy < 0 := by
  obtain ⟨hne, -, -, hsupport⟩ := (h.isPrimalInfeasible_iff heps.le dy).mp hdy
  have hpos : 0 < maxNorm (Vec.hadamard dy S.scaling.e).get := (maxNorm_nonneg _).lt_of_ne' hne
  rw [h.support_eq, ← get_hadamard_eq]
  exact hsupport.trans_lt (neg_lt_zero.mpr (mul_pos heps hpos))

/-- At the tolerance zero it takes in whatever separates the bounds, if perhaps not strictly. -/
theorem IsScaling.isPrimalInfeasible_zero_iff (h : S.IsScaling P limit) (dy : Vector K m) :
    S.isPrimalInfeasible dy 0 = true ↔ (Vec.hadamard dy S.scaling.e).get ≠ 0 ∧
      P.Separates limit (Vec.hadamard dy S.scaling.e).get ∧ S.support dy ≤ 0 := by
  rw [h.isPrimalInfeasible_iff le_rfl, zero_mul, neg_zero, h.support_eq, ← get_hadamard_eq, ne_eq, maxNorm_eq_zero_iff,
    maxNorm_le_zero_iff]
  constructor
  · rintro ⟨hne, hforce, hpush, hsupport⟩
    exact ⟨hne, { force := hforce, no_upper := fun i => (hpush i).1, no_lower := fun i => (hpush i).2 }, hsupport⟩
  · rintro ⟨hne, hv, hsupport⟩
    exact ⟨hne, hv.force, fun i => ⟨hv.no_upper i, hv.no_lower i⟩, hsupport⟩

theorem IsScaling.dot_linear_nonpos_iff (h : S.IsScaling P limit) (dx : Vector K n) :
    Vec.dot S.q dx ≤ 0 ↔ P.q ⬝ᵥ (Vec.hadamard dx S.scaling.d).get ≤ 0 := by
  rw [get_hadamard_eq, ← h.dot_linear, mul_comm]
  exact (smul_nonpos_iff_nonpos_of_pos_left (inv_pos.mpr h.c_pos)).symm

/-- At a positive tolerance the test for dual infeasibility is strict, whatever products come with the step. -/
theorem slope_neg (hc : 0 < S.scaling.c) (heps : 0 < eps) {dx Qdx : Vector K n} {Adx : Vector K m}
    (hdx : S.isDualInfeasible dx Qdx Adx eps = true) : Vec.dot S.q dx < 0 := by
  simp only [isDualInfeasible, Scalar.isFinite_eq_true, Bool.and_true, Vec.normInfScaled_eq_maxNorm,
    Bool.and_eq_true, Bool.not_eq_true', beq_eq_false_iff_ne, ne_eq, decide_eq_false_iff_not, not_lt,
    Scalar.recip_eq_inv] at hdx
  obtain ⟨⟨⟨hne, -⟩, hfall⟩, -⟩ := hdx
  have hpos : 0 < maxNorm fun i => dx.get i * S.scaling.d.get i := (maxNorm_nonneg _).lt_of_ne' hne
  have hneg := hfall.trans_lt (neg_lt_zero.mpr (mul_pos heps hpos))
  exact neg_of_mul_neg_left hneg (inv_pos.mpr hc).le

/-- At the tolerance zero it takes in every direction of recession along which the cost does not rise. -/
theorem IsScaling.isDualInfeasible_zero_iff (h : S.IsScaling P limit) {dx Qdx : Vector K n} {Adx : Vector K m}
    (hAdx : Adx.get = S.A.toMatrix m n *ᵥ dx.get) (hQdx : Qdx.get = S.Q.symMatrix n *ᵥ dx.get) :
    S.isDualInfeasible dx Qdx Adx 0 = true ↔ (Vec.hadamard dx S.scaling.d).get ≠ 0 ∧
      P.Recedes limit (Vec.hadamard dx S.scaling.d).get ∧ Vec.dot S.q dx ≤ 0 := by
  rw [h.isDualInfeasible_iff hAdx hQdx, zero_mul, neg_zero, h.dot_linear_nonpos_iff dx, ne_eq, maxNorm_eq_zero_iff,
    maxNorm_le_zero_iff]
  constructor
  · rintro ⟨hne, hcurvature, hfall, hrows⟩
    exact ⟨hne, { curvature := hcurvature
                  lower := fun i hi => (hrows i).1.resolve_left (not_not.mpr hi)
                  upper := fun i hi => (hrows i).2.resolve_left (not_not.mpr hi) }, hfall⟩
  · rintro ⟨hne, hd, hfall⟩
    exact ⟨hne, hd.curvature, hfall, fun i => ⟨(em _).symm.imp_right (hd.lower i), (em _).symm.imp_right (hd.upper i)⟩⟩

end ScaledProgram
end AugLag
