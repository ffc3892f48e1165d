import AugLag.Proofs.Solver.Passes
import AugLag.Proofs.Sparse.Product

/-!
# Invariants of the iteration

A run carries products with the matrices along and updates them step by step. They stay the products of the
present point, and the penalties stay positive (`Run.Coherent`). A run that ends does so right after its
residuals have been measured (`Run.Measured`), except when a factorization fails.
-/

namespace AugLag

variable {K : Type} [ExactScalar K] {n m : Nat} {P : ScaledProgram K n m} {c : Settings K}

open scoped Matrix

/-! ## Points -/

/-- The products that a point carries are those of its position and of its last step. -/
structure Point.Carries (p : Point K n m) (P : ScaledProgram K n m) : Prop where
  Ax_eq : p.Ax.get = P.A.toMatrix m n *ᵥ p.x.get
  Qx_eq : p.Qx.get = P.Q.symMatrix n *ᵥ p.x.get
  Adx_eq : p.Adx.get = P.A.toMatrix m n *ᵥ p.dx.get
  Qdx_eq : p.Qdx.get = P.Q.symMatrix n *ᵥ p.dx.get

theorem get_mulAdd_one (A : SparseMatrix K) (x : Vector K n) :
    (A.mulAdd (Vec.zeros m) x 1 0).get = A.toMatrix m n *ᵥ x.get := by
  ext i
  rw [SparseMatrix.get_mulAdd, zero_mul, zero_add, one_mul]

theorem get_symMulAdd_one (hQ : P.Q.Upper) (hn : P.Q.cols = n) (x : Vector K n) :
    (P.Q.symMulAdd (Vec.zeros n) x 1 0).get = P.Q.symMatrix n *ᵥ x.get := by
  ext i
  rw [SparseMatrix.get_symMulAdd hQ hn, zero_mul, zero_add, one_mul]

theorem get_adjointMulAdd_one (A : SparseMatrix K) (y : Vector K m) :
    (A.adjointMulAdd (Vec.zeros n) y 1 0).get = (A.toMatrix m n)ᵀ *ᵥ y.get := by
  ext j
  rw [SparseMatrix.get_adjointMulAdd, zero_mul, zero_add, one_mul]

theorem Point.carries_start (hQ : P.Q.Upper) (hn : P.Q.cols = n) (x : Vector K n) (y : Vector K m) :
    (Point.start P x y).Carries P where
  Ax_eq := get_mulAdd_one P.A x
  Qx_eq := get_symMulAdd_one hQ hn x
  Adx_eq := by
    have hzero : (Point.start P x y).dx.get = 0 := funext Vec.get_zeros
    rw [hzero, Matrix.mulVec_zero]
    exact funext Vec.get_zeros
  Qdx_eq := by
    have hzero : (Point.start P x y).dx.get = 0 := funext Vec.get_zeros
    rw [hzero, Matrix.mulVec_zero]
    exact funext Vec.get_zeros

theorem get_combine_eq (a : K) (x : Vector K n) (b : K) (y : Vector K n) :
    (Vec.combine a x b y).get = a • x.get + b • y.get :=
  funext fun i => Vec.get_combine a x b y i

theorem Point.Carries.step {p : Point K n m} (h : p.Carries P) (τ : K) {d : Vector K n} {Ad : Vector K m}
    {Qd : Vector K n} (hAd : Ad.get = P.A.toMatrix m n *ᵥ d.get) (hQd : Qd.get = P.Q.symMatrix n *ᵥ d.get) :
    (p.step τ d Ad Qd).Carries P where
  Ax_eq := by simp only [Point.step, get_combine_eq, hAd, h.Ax_eq, Matrix.mulVec_add, Matrix.mulVec_smul]
  Qx_eq := by simp only [Point.step, get_combine_eq, hQd, h.Qx_eq, Matrix.mulVec_add, Matrix.mulVec_smul]
  Adx_eq := by simp only [Point.step, get_combine_eq, hAd, Matrix.mulVec_add, Matrix.mulVec_smul]
  Qdx_eq := by simp only [Point.step, get_combine_eq, hQd, Matrix.mulVec_add, Matrix.mulVec_smul]

theorem Point.Carries.updateMultipliers {p : Point K n m} (h : p.Carries P) (e : Evaluation K n m) :
    (p.updateMultipliers e).Carries P :=
  ⟨h.Ax_eq, h.Qx_eq, h.Adx_eq, h.Qdx_eq⟩

/-! ## Penalties -/

namespace Penalty

/-- Every constraint is penalized. -/
def Positive (p : Penalty K m) : Prop := ∀ i, 0 < p.sigma.get i

theorem positive_initial (hc : c.validate = .ok ()) (rhoFloor : K) : (Penalty.initial m c rhoFloor).Positive := by
  intro i
  rw [Penalty.initial, Vec.get_fill]
  exact Settings.initialPenalty_pos hc

theorem grown_pos (hc : c.validate = .ok ()) (scale v : K) {sigma : K} (h : 0 < sigma) :
    0 < grown c scale v sigma := by
  have hfactor : 0 < Scalar.max 1 (c.penaltyGrowth * Scalar.abs v / scale) := by
    rw [Scalar.max_eq_max]
    exact one_pos.trans_le (le_max_left _ _)
  rw [grown, Scalar.min_eq_min]
  exact lt_min (Settings.maxPenalty_pos hc) (mul_pos hfactor h)

theorem Positive.growRow (hc : c.validate = .ok ()) {acc : Penalty K m × List Nat} (h : acc.1.Positive)
    (scale : K) (i : Nat) (v previous : K) : (growRow c scale acc i v previous).1.Positive := by
  unfold Penalty.growRow
  simp only
  split
  · intro j
    rw [Vec.get_update]
    by_cases hij : i = j
    · subst hij
      rw [if_pos rfl, Vec.get_eq_of_lt]
      exact grown_pos hc scale v (h j)
    · rw [if_neg hij]
      exact h j
  · exact h

theorem Positive.grow (hc : c.validate = .ok ()) {p : Penalty K m} (h : p.Positive) (violation previous : Array K) :
    (p.grow violation previous c).1.Positive := by
  unfold Penalty.grow
  generalize rowsWith violation previous = rows
  have hfold : ∀ acc : Penalty K m × List Nat, acc.1.Positive →
      (rows.foldl (fun acc r => Penalty.growRow c (violationScale violation) acc r.1 r.2.1 r.2.2) acc).1.Positive := by
    induction rows with
    | nil => exact fun acc hacc => hacc
    | cons r rows ih => exact fun acc hacc => ih _ (hacc.growRow hc _ _ _ _)
  exact hfold (p, []) h

theorem Positive.lowerProximal {p : Penalty K m} (h : p.Positive) (solved : Bool) (c : Settings K) :
    (p.lowerProximal solved c).1.Positive := by
  unfold Penalty.lowerProximal
  split
  · exact h
  · exact h

end Penalty

/-! ## Newton steps -/

namespace NewtonState

theorem sigma_factorWithRetries (active : Vector Bool m) (tries failures : Nat) (s : NewtonState K n m) :
    (factorWithRetries P active c tries failures s).1.penalty.sigma = s.penalty.sigma := by
  induction tries generalizing failures s with
  | zero =>
      unfold factorWithRetries
      simp only [update]
      split
      · rfl
      · rfl
      · next htries => cases htries
  | succ tries ih =>
      unfold factorWithRetries
      simp only [update]
      split
      · rfl
      · next htries => cases htries
      · next htries =>
          cases htries
          exact ih _ _

theorem sigma_factor (s : NewtonState K n m) (active : Vector Bool m) :
    (s.factor P active c).1.penalty.sigma = s.penalty.sigma := by
  have h := sigma_factorWithRetries (P := P) (c := c) active c.maxFactorizationRetries 0 s
  unfold factor
  simp only
  split
  · exact h
  · exact h
  · exact h

theorem sigma_factorInitial (s : NewtonState K n m) (active : Vector Bool m) :
    (s.factorInitial P active c).1.penalty.sigma = s.penalty.sigma := by
  unfold factorInitial
  simp only
  split
  · rfl
  · split
    · rfl
    · exact sigma_factor _ active
  · exact sigma_factor _ active

/-- A step keeps the penalties, and its point carries the products of the new position. -/
theorem step_spec (hQ : P.Q.Upper) (hn : P.Q.cols = n) (s : NewtonState K n m) {p : Point K n m} (hp : p.Carries P)
    (e : Evaluation K n m) :
    (s.step P p e c).1.penalty.sigma = s.penalty.sigma ∧
      ∀ τ p', (s.step P p e c).2.1 = .ok (τ, p') → p'.Carries P := by
  have hsigma := sigma_factor (P := P) (c := c) s e.active
  unfold step
  split
  · next heq =>
      rw [heq] at hsigma
      exact ⟨hsigma, fun τ p' h => by cases h⟩
  · next heq =>
      rw [heq] at hsigma
      simp only
      split
      · refine ⟨hsigma, fun τ p' h => ?_⟩
        cases h
        exact hp.step _ (get_mulAdd_one P.A _) (get_symMulAdd_one hQ hn _)
      · refine ⟨hsigma, fun τ p' h => ?_⟩
        cases h
        exact hp.step _ (get_mulAdd_one P.A _) (get_symMulAdd_one hQ hn _)

end NewtonState

/-! ## Runs -/

namespace Run

/-- The products are up to date and the penalties are positive. -/
structure Coherent (r : Run K n m) (P : ScaledProgram K n m) : Prop where
  carries : r.point.Carries P
  positive : r.newton.penalty.Positive

/-- The residuals have been measured at the present point, if perhaps with earlier multipliers. -/
def Measured (r : Run K n m) (P : ScaledProgram K n m) : Prop :=
  ∃ (y sigma : Vector K m) (center : Vector K n) (rho : K), (∀ i, 0 < sigma.get i) ∧
    r.evaluation = Evaluation.ofPoint P { r.point with y, center } sigma rho ∧
    r.residuals = Residuals.ofPoint P r.point r.evaluation

theorem Coherent.measure {r : Run K n m} (h : r.Coherent P) : (r.measure P).Coherent P := ⟨h.carries, h.positive⟩

theorem Coherent.measured {r : Run K n m} (h : r.Coherent P) : (r.measure P).Measured P :=
  ⟨r.point.y, r.newton.penalty.sigma, r.point.center, r.newton.penalty.rho, h.positive, rfl, rfl⟩

theorem positive_growPenalties (hc : c.validate = .ok ()) {r : Run K n m} (h : r.newton.penalty.Positive) :
    (r.growPenalties c).1.Positive := by
  unfold growPenalties
  simp only
  split
  · exact h.grow hc _ _
  · exact h

theorem Coherent.outerStep (hc : c.validate = .ok ()) {r : Run K n m} (h : r.Coherent P) (expired : Nat → Bool)
    (solved : Bool) : (r.outerStep P c expired solved).1.Coherent P :=
  ⟨h.carries.updateMultipliers _, (positive_growPenalties hc h.positive).lowerProximal solved c⟩

theorem Measured.outerStep {r : Run K n m} (h : r.Measured P) (expired : Nat → Bool) (solved : Bool) :
    (r.outerStep P c expired solved).1.Measured P := h

theorem Coherent.innerStep (hQ : P.Q.Upper) (hn : P.Q.cols = n) {r : Run K n m} (h : r.Coherent P) :
    (r.innerStep P c).1.Coherent P := by
  obtain ⟨hsigma, hpoint⟩ := r.newton.step_spec (c := c) hQ hn h.carries r.evaluation
  unfold Run.innerStep
  split
  · next heq =>
      rw [heq] at hsigma
      exact ⟨h.carries, fun i => hsigma ▸ h.positive i⟩
  · next heq =>
      rw [heq] at hsigma hpoint
      exact ⟨hpoint _ _ rfl, fun i => hsigma ▸ h.positive i⟩

/-- The counters stay below their limits, except that the last multiplier update may reach its own. -/
def WithinLimits (r : Run K n m) (c : Settings K) : Prop := r.info.iter ≤ c.maxIter ∧ r.info.iterOut < c.maxOuterIter

/-- An upper bound on the number of passes to come. -/
def budget (r : Run K n m) (c : Settings K) : Nat := (c.maxIter - r.info.iter) + (c.maxOuterIter - r.info.iterOut)

/-- What is known when an iteration ends: the verdict belongs to the residuals just measured, or a limit was hit. -/
def Ended (r : Run K n m) (P : ScaledProgram K n m) (c : Settings K) (status : Status) : Prop :=
  status = .nonConvex ∨ r.Measured P ∧ (r.finished P c = some status ∨ status.isLimit = true)

/-- One pass keeps the invariant. It either ends with a justified status, or uses up a part of the budget. -/
theorem pass_spec (hQ : P.Q.Upper) (hn : P.Q.cols = n) (hc : c.validate = .ok ()) {r : Run K n m}
    (h : r.Coherent P) (hlim : r.WithinLimits c) (expired : Nat → Bool) :
    (r.pass P c expired).1.Coherent P ∧
      (∀ status, (r.pass P c expired).2.1 = some status → (r.pass P c expired).1.Ended P c status) ∧
        ((r.pass P c expired).2.1 = none →
          (r.pass P c expired).1.WithinLimits c ∧ (r.pass P c expired).1.budget c < r.budget c) := by
  obtain ⟨hiter, hout⟩ := hlim
  unfold pass
  simp only
  split
  · next status hfin =>
      refine ⟨h.measure, fun status' hs => ?_, fun hnone => by cases hnone⟩
      cases hs
      exact .inr ⟨h.measured, .inl hfin⟩
  · split
    · refine ⟨h.measure, fun status hs => ?_, fun hnone => by cases hnone⟩
      cases hs
      exact .inr ⟨h.measured, .inr rfl⟩
    · next hmax =>
        have hlt : r.info.iter < c.maxIter := not_le.mp hmax
        split
        · refine ⟨h.measure.outerStep hc _ _, fun status hs => ?_, fun hnone => ?_⟩
          · exact .inr ⟨h.measured.outerStep _ _, .inr (outerStep_status _ _ _ hs)⟩
          · obtain ⟨hi, ho, hlast⟩ := outerStep_continues _ _ _ hnone
            rw [WithinLimits, budget, budget, hi, ho]
            refine ⟨⟨hiter, hlast⟩, ?_⟩
            show c.maxIter - r.info.iter + (c.maxOuterIter - (r.info.iterOut + 1)) < _
            omega
        · refine ⟨h.measure.innerStep hQ hn, fun status hs => .inl (innerStep_status _ hs), fun hnone => ?_⟩
          obtain ⟨hi, ho⟩ := innerStep_continues _ hnone
          rw [WithinLimits, budget, budget, hi, ho]
          refine ⟨⟨hlt, hout⟩, ?_⟩
          show c.maxIter - (r.info.iter + 1) + (c.maxOuterIter - r.info.iterOut) < _
          omega

/-- The iteration ends by itself before the number of passes runs out. -/
theorem iterate_spec (hQ : P.Q.Upper) (hn : P.Q.cols = n) (hc : c.validate = .ok ()) (expired : Nat → Bool)
    (passes : Nat) {r : Run K n m} (h : r.Coherent P) (hlim : r.WithinLimits c) (hbudget : r.budget c ≤ passes) :
    (iterate P c expired passes r).1.Coherent P ∧
      (iterate P c expired passes r).1.Ended P c (iterate P c expired passes r).2.1 := by
  induction passes generalizing r with
  | zero =>
      obtain ⟨-, hout⟩ := hlim
      rw [budget] at hbudget
      omega
  | succ passes ih =>
      obtain ⟨hcoh, hend, hcont⟩ := pass_spec hQ hn hc h hlim expired
      unfold iterate
      split
      · next r' status signals heq =>
          rw [heq] at hcoh hend
          exact ⟨hcoh, hend status rfl⟩
      · next r' signals heq =>
          rw [heq] at hcoh hcont
          obtain ⟨hlim', hless⟩ := hcont rfl
          exact ih hcoh hlim' (Nat.le_of_lt_succ (hless.trans_le hbudget))

/-- A run whose residuals pass the test goes no further. -/
theorem iterate_of_solved {r : Run K n m} (hsolved : (r.measure P).residuals.isSolved c.epsAbs c.epsRel = true)
    (expired : Nat → Bool) {passes : Nat} (hpasses : 0 < passes) :
    iterate P c expired passes r = (r.measure P, .solved, []) := by
  have hpass : r.pass P c expired = (r.measure P, some .solved, []) := by
    unfold pass finished verdict
    simp only [hsolved, if_true]
  cases passes with
  | zero => cases hpasses
  | succ passes =>
      unfold iterate
      rw [hpass]

theorem complete_spec (hQ : P.Q.Upper) (hn : P.Q.cols = n) (hc : c.validate = .ok ()) {r : Run K n m}
    (h : r.Coherent P) (hinfo : r.info = Info.blank) (expired : Nat → Bool) :
    (r.complete P c expired).1.Coherent P ∧ (r.complete P c expired).1.Ended P c (r.complete P c expired).2.1 := by
  have hlim : r.WithinLimits c := by
    rw [WithinLimits, hinfo]
    exact ⟨Nat.zero_le _, Settings.maxOuterIter_pos hc⟩
  have hbudget : r.budget c ≤ passLimit c := by
    rw [budget, passLimit]
    omega
  unfold complete
  split
  · exact iterate_spec hQ hn hc expired _ h hlim hbudget
  · have hsigma := NewtonState.sigma_factorInitial (P := P) (c := c) r.newton (r.evaluate P).evaluation.active
    simp only
    split
    · next newton e log heq =>
        have heq' : r.newton.factorInitial P (r.evaluate P).evaluation.active c = (newton, .error e, log) := heq
        rw [heq'] at hsigma
        exact ⟨⟨h.carries, fun i => hsigma ▸ h.positive i⟩, .inl rfl⟩
    · next newton log heq =>
        have heq' : r.newton.factorInitial P (r.evaluate P).evaluation.active c = (newton, .ok (), log) := heq
        rw [heq'] at hsigma
        have hcoh : ({ r.evaluate P with newton } : Run K n m).Coherent P :=
          ⟨h.carries, fun i => hsigma ▸ h.positive i⟩
        exact iterate_spec hQ hn hc expired _ hcoh hlim hbudget

end Run
end AugLag
