import AugLag.Proofs.Solver.Certificate

/-!
# The duality gap

The objectives that are reported are those of the reported solution, in the units of the problem. A multiplier that
pushes does so at a bound, and `z` lies on that bound. So the gap between the objectives is made of the residuals alone,
and the norms that are reported bound it.
-/

namespace AugLag

variable {K : Type} [ExactScalar K] {n m : Nat} {S : ScaledProgram K n m} {P : PosedProblem K n m} {limit : K}
variable {c : Settings K}

open scoped Matrix

/-! ## Objectives of a problem -/

namespace PosedProblem

variable {x : Fin n → K} {y z : Fin m → K}

def objective (P : PosedProblem K n m) (x : Fin n → K) : K := x ⬝ᵥ P.Q *ᵥ x / 2 + P.q ⬝ᵥ x

def dualObjective (P : PosedProblem K n m) (limit : K) (x : Fin n → K) (y : Fin m → K) : K :=
  -(x ⬝ᵥ P.Q *ᵥ x / 2) - P.support limit y

/-- No multiplier pushes against an absent bound. -/
structure PushesPresent (P : PosedProblem K n m) (limit : K) (y : Fin m → K) : Prop where
  no_upper : ∀ i, ¬P.HasUpper limit i → y i ≤ 0
  no_lower : ∀ i, ¬P.HasLower limit i → 0 ≤ y i

instance (P : PosedProblem K n m) (limit : K) (y : Fin m → K) : Decidable (P.PushesPresent limit y) :=
  decidable_of_iff ((∀ i, ¬P.HasUpper limit i → y i ≤ 0) ∧ ∀ i, ¬P.HasLower limit i → 0 ≤ y i)
    ⟨fun ⟨hupper, hlower⟩ => ⟨hupper, hlower⟩, fun h => ⟨h.no_upper, h.no_lower⟩⟩

/-- The statistics are those of a point `x` with multipliers `y` and a point `z` between the bounds. The gap between
the objectives is what the residuals allow. -/
structure Accounts (P : PosedProblem K n m) (limit : K) (info : Info K) (x : Fin n → K) (y z : Fin m → K) : Prop where
  objective : info.objective = P.objective x
  dualObjective : info.dualObjective = P.dualObjective limit x y
  primalResidual : info.primalResidual = maxNorm (P.A *ᵥ x - z)
  dualResidual : info.dualResidual = maxNorm (P.Q *ᵥ x + P.q + P.Aᵀ *ᵥ y)
  gap : P.PushesPresent limit y → info.objective - info.dualObjective =
    x ⬝ᵥ (P.Q *ᵥ x + P.q + P.Aᵀ *ᵥ y) - y ⬝ᵥ (P.A *ᵥ x - z)
  gap_le : P.PushesPresent limit y → |info.objective - info.dualObjective| ≤
    (∑ j, |x j|) * info.dualResidual + (∑ i, |y i|) * info.primalResidual

/-- Where every multiplier pushes against a bound that `z` lies on, the support is the product with `z`. -/
theorem support_eq_dotProduct (hpush : P.PushesPresent limit y)
    (hupper : ∀ i, 0 < y i → P.HasUpper limit i → z i = P.upperAt limit i)
    (hlower : ∀ i, y i < 0 → P.HasLower limit i → z i = P.lowerAt limit i) : P.support limit y = y ⬝ᵥ z := by
  rw [support, ← Finset.sum_add_distrib, dotProduct]
  refine Finset.sum_congr rfl fun i _ => ?_
  rcases lt_trichotomy (y i) 0 with hneg | hzero | hpos
  · have hi : P.HasLower limit i := not_not.mp fun habsent => hneg.not_ge (hpush.no_lower i habsent)
    rw [if_neg fun hp => hneg.asymm hp.1, if_pos ⟨hneg, hi⟩, zero_add, hlower i hneg hi, mul_comm]
  · simp [hzero]
  · have hi : P.HasUpper limit i := not_not.mp fun habsent => hpos.not_ge (hpush.no_upper i habsent)
    rw [if_pos ⟨hpos, hi⟩, if_neg fun hn => hpos.asymm hn.1, add_zero, hupper i hpos hi, mul_comm]

/-- The gap is the product of the solution with the residuals. -/
theorem gap_eq (hsupport : P.support limit y = y ⬝ᵥ z) :
    P.objective x - P.dualObjective limit x y =
      x ⬝ᵥ (P.Q *ᵥ x + P.q + P.Aᵀ *ᵥ y) - y ⬝ᵥ (P.A *ᵥ x - z) := by
  rw [objective, dualObjective, hsupport, dotProduct_add, dotProduct_add, dotProduct_sub,
    Matrix.dotProduct_transpose_mulVec, dotProduct_comm P.q x]
  ring

end PosedProblem

theorem abs_gap_le (x v : Fin n → K) (y w : Fin m → K) :
    |x ⬝ᵥ v - y ⬝ᵥ w| ≤ (∑ j, |x j|) * maxNorm v + (∑ i, |y i|) * maxNorm w :=
  (abs_sub _ _).trans (add_le_add (abs_dotProduct_le x v) (abs_dotProduct_le y w))

/-! ## Objectives of a run -/

/-- The fold of the dual objective takes the support off its start. -/
theorem Solver.dualObjective_eq_support (S : ScaledProgram K n m) (r : Run K n m) : Solver.dualObjective S r =
    (-(1 / 2) * Vec.dot r.point.x r.point.Qx - S.support r.evaluation.multiplier) / S.scaling.c := by
  unfold Solver.dualObjective
  simp only
  rw [ScaledProgram.foldl_ite_add _ _ fun i => -S.pushed r.evaluation.multiplier i, SparseMatrix.sum_map_finRange,
    Finset.sum_neg_distrib, ← ScaledProgram.support_eq_sum, Scalar.half_eq, ← sub_eq_add_neg]
  intro a i
  unfold ScaledProgram.pushed
  by_cases hpos : 0 < r.evaluation.multiplier.get i
  · by_cases hu : S.upperFinite.get i = true
    · simp [hpos, hu, sub_eq_add_neg]
    · simp [hpos, hu, hpos.asymm]
  · by_cases hneg : r.evaluation.multiplier.get i < 0
    · by_cases hl : S.lowerFinite.get i = true
      · simp [hpos, hneg, hl, sub_eq_add_neg]
      · simp [hpos, hneg, hl]
    · simp [hpos, hneg]

namespace Run

variable {r : Run K n m}

theorem Coherent.curvature_eq (hr : r.Coherent S) (h : S.IsScaling P limit) :
    r.reportedPrimal S ⬝ᵥ P.Q *ᵥ r.reportedPrimal S = Vec.dot r.point.x r.point.Qx * S.scaling.c⁻¹ := by
  rw [hr.cost_primal h, Vec.dot_eq_dotProduct, dotProduct, dotProduct, Finset.sum_mul]
  refine Finset.sum_congr rfl fun j _ => ?_
  have hd := (h.d_pos j).ne'
  rw [reportedPrimal, h.dinv_eq]
  field_simp

theorem Coherent.objective_eq (hr : r.Coherent S) (h : S.IsScaling P limit) :
    S.objective r.point.x r.point.Qx / S.scaling.c = P.objective (r.reportedPrimal S) := by
  have hlinear : P.q ⬝ᵥ r.reportedPrimal S = Vec.dot S.q r.point.x * S.scaling.c⁻¹ := (h.dot_linear r.point.x).symm
  rw [ScaledProgram.objective, PosedProblem.objective, hr.curvature_eq h, hlinear, Scalar.half_eq]
  ring

theorem Coherent.dualObjective_eq (hr : r.Coherent S) (h : S.IsScaling P limit) :
    Solver.dualObjective S r = P.dualObjective limit (r.reportedPrimal S) (r.reportedDual S) := by
  rw [Solver.dualObjective_eq_support, PosedProblem.dualObjective, hr.curvature_eq h, reportedDual_eq_smul,
    ScaledProgram.support_smul P limit (inv_pos.mpr h.c_pos), h.support_eq]
  ring

/-- Where no multiplier pushes against an absent bound, the gap between the objectives comes from the residuals. -/
theorem Measured.gap_eq (hm : r.Measured S) (h : S.IsScaling P limit)
    (hpush : P.PushesPresent limit (r.reportedDual S)) :
    P.objective (r.reportedPrimal S) - P.dualObjective limit (r.reportedPrimal S) (r.reportedDual S) =
      r.reportedPrimal S ⬝ᵥ (P.Q *ᵥ r.reportedPrimal S + P.q + P.Aᵀ *ᵥ r.reportedDual S) -
        r.reportedDual S ⬝ᵥ (P.A *ᵥ r.reportedPrimal S - r.reportedActivity S) :=
  PosedProblem.gap_eq (PosedProblem.support_eq_dotProduct hpush (fun _ hy hi => hm.activity_at_upper h hy hi)
    fun _ hy hi => hm.activity_at_lower h hy hi)

/-! ## What is recorded -/

/-- The norms in the statistics are those of the residuals. -/
def Recorded (r : Run K n m) : Prop :=
  r.info.primalResidual = r.residuals.primal ∧ r.info.dualResidual = r.residuals.dual

theorem recorded_measure (r : Run K n m) : (r.measure S).Recorded := ⟨rfl, rfl⟩

theorem Recorded.innerStep (hr : r.Recorded) : (r.innerStep S c).1.Recorded := by
  unfold Run.innerStep
  split
  · exact hr
  · exact hr

theorem recorded_pass (r : Run K n m) (expired : Nat → Bool) : (r.pass S c expired).1.Recorded := by
  unfold pass
  simp only
  split
  · exact r.recorded_measure
  · split
    · exact r.recorded_measure
    · split
      · exact r.recorded_measure
      · exact r.recorded_measure.innerStep

theorem recorded_iterate (expired : Nat → Bool) {passes : Nat} (hpasses : 0 < passes) (r : Run K n m) :
    (iterate S c expired passes r).1.Recorded := by
  induction passes generalizing r with
  | zero => cases hpasses
  | succ passes ih =>
      have hpass := r.recorded_pass (S := S) (c := c) expired
      unfold iterate
      split
      · next heq =>
          rw [heq] at hpass
          exact hpass
      · next r' _ heq =>
          rw [heq] at hpass
          cases passes with
          | zero => exact hpass
          | succ passes => exact ih (Nat.succ_pos passes) r'

/-- The norms are recorded, unless the first factorization fails. -/
theorem recorded_complete (hc : c.validate = .ok ()) (r : Run K n m) (expired : Nat → Bool) :
    (r.complete S c expired).2.1 = .nonConvex ∨ (r.complete S c expired).1.Recorded := by
  have hpasses : 0 < passLimit c := Nat.add_pos_right _ (Settings.maxOuterIter_pos hc)
  unfold complete
  split
  · exact .inr (recorded_iterate expired hpasses r)
  · simp only
    split
    · exact .inl rfl
    · exact .inr (recorded_iterate expired hpasses _)

/-- At a recorded measurement the final statistics are those of the reported solution. -/
theorem Measured.accounts (hm : r.Measured S) (hr : r.Coherent S) (hrecorded : r.Recorded) (h : S.IsScaling P limit)
    {status : Status} (hstatus : status.hasSolution = true) :
    P.Accounts limit (Solver.finalInfo S r status) (r.reportedPrimal S) (r.reportedDual S) (r.reportedActivity S) := by
  obtain ⟨hprimal, hdual⟩ := hm.residual_norms hr h
  have hobjective : (Solver.finalInfo S r status).objective = P.objective (r.reportedPrimal S) :=
    (if_pos hstatus).trans (hr.objective_eq h)
  have hdualObjective : (Solver.finalInfo S r status).dualObjective =
      P.dualObjective limit (r.reportedPrimal S) (r.reportedDual S) :=
    (if_pos hstatus).trans (hr.dualObjective_eq h)
  have hprimalInfo : (Solver.finalInfo S r status).primalResidual = _ := hrecorded.1.trans hprimal
  have hdualInfo : (Solver.finalInfo S r status).dualResidual = _ := hrecorded.2.trans hdual
  exact
    { objective := hobjective
      dualObjective := hdualObjective
      primalResidual := hprimalInfo
      dualResidual := hdualInfo
      gap := fun hpush => by rw [hobjective, hdualObjective, hm.gap_eq h hpush]
      gap_le := fun hpush => by
        rw [hobjective, hdualObjective, hm.gap_eq h hpush, hprimalInfo, hdualInfo]
        exact abs_gap_le _ _ _ _ }

end Run

/-- A run that ends with a solution has measured and recorded it. -/
theorem Solver.measured_of_hasSolution {S : Solver K n m} (h : S.program.IsScaling P limit)
    (hc : S.settings.validate = .ok ()) (hstart : S.start.Coherent S.program) (expired : Nat → Bool)
    (hstatus : (S.run expired).2.info.status.hasSolution = true) :
    (S.run expired).2.run.Coherent S.program ∧ (S.run expired).2.run.Measured S.program ∧
      (S.run expired).2.run.Recorded := by
  obtain ⟨hcoherent, hended⟩ := Run.complete_spec h.cost_upper h.cost_cols hc hstart rfl expired
  have hrecorded := S.start.recorded_complete (S := S.program) hc expired
  have hstatus' : ((S.start.complete S.program S.settings expired).1.reduced S.program S.settings
      (S.start.complete S.program S.settings expired).2.1).hasSolution = true := hstatus
  have hne : (S.start.complete S.program S.settings expired).2.1 ≠ .nonConvex := by
    intro heq
    rw [heq] at hstatus'
    cases hstatus'
  exact ⟨hcoherent, (hended.resolve_left hne).1, hrecorded.resolve_left hne⟩

end AugLag
