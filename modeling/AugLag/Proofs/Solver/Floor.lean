import AugLag.Proofs.Solver.Passes
import AugLag.Proofs.Solver.Simulation
import AugLag.Proofs.Solver.Spectrum

/-!
# The floor of the proximal weight

The weight of a solve starts at a floor or above it, and whatever lowers it stops at the floor. So the cost together with
the proximal term is convex at every iterate, provided that the floor outweighs the most negative curvature of the cost
(`Run.Reaches.floored`). The floor is made from the estimate of the smallest eigenvalue (`Solver.rhoFloor_eq`).
-/

namespace AugLag

open scoped Matrix

/-! ## Penalties on the way -/

section General

variable {T : Type} [Scalar T] {n m : Nat} {P : ScaledProgram T n m} {c : Settings T} {D : Penalty T m → Prop}

/-- What the changes of a penalty keep is a matter of the penalty alone. -/
theorem interchangeable_self (hregularize : ∀ p, D p → D (p.regularize c)) (hcommit : ∀ p, D p → D p.commit)
    (hgrow : ∀ p violation previous, D p → D (p.grow violation previous c).1)
    (hlower : ∀ p solved, D p → D (p.lowerProximal solved c).1) : Interchangeable P c c.policy D Eq where
  update _ _ _ _ heq _ := by rw [heq, c.withPolicy_policy]
  outcome _ _ _ _ heq _ := by rw [heq, c.withPolicy_policy]
  solve _ _ _ _ heq _ _ _ := by rw [heq, c.withPolicy_policy]
  regularize := hregularize
  commit := hcommit
  grow := hgrow
  lowerProximal := hlower

namespace Run

variable {r r₀ : Run T n m} {expired : Nat → Bool} {k : Nat}

omit [Scalar T] in
theorem alike_self (h : D r.newton.penalty) : r.Alike D Eq r :=
  ⟨rfl, { penalty := rfl, inside := h, engines := rfl }⟩

theorem penalty_pass (hsim : Interchangeable P c c.policy D Eq) (h : D r.newton.penalty) (expired : Nat → Bool) :
    D (r.pass P c expired).1.newton.penalty :=
  ((alike_self h).pass hsim expired).1.2.inside

/-- What the changes of a penalty keep holds before every pass. -/
theorem Reaches.penalty (h : Reaches P c expired r₀ k r) (hsim : Interchangeable P c c.policy D Eq)
    (h₀ : D r₀.newton.penalty) : D r.newton.penalty := by
  induction h with
  | start => exact h₀
  | next _ _ ih => exact penalty_pass hsim ih expired

end Run

end General

variable {K : Type} [ExactScalar K] {n m : Nat} {P : ScaledProgram K n m} {c : Settings K}

namespace Penalty

/-- The weight stays above its floor, and the floor above a given number. -/
structure Floored (b : K) (p : Penalty K m) : Prop extends Proximal p where
  le_floor : b ≤ p.rhoFloor

variable {b : K} {p : Penalty K m}

theorem Floored.le_rho (h : p.Floored b) : b ≤ p.rho := h.le_floor.trans h.floor_le

theorem floored_initial {rhoFloor : K} (hfloor : 0 < rhoFloor) : (Penalty.initial m c rhoFloor).Floored rhoFloor :=
  { proximal_initial hfloor with le_floor := le_rfl }

theorem Floored.regularize (hc : c.validate = .ok ()) (h : p.Floored b) : (p.regularize c).Floored b := by
  have hgrows : p.rho ≤ p.rho * c.proximalRegularizationFactor :=
    le_mul_of_one_le_right h.rho_pos.le (Settings.proximalRegularizationFactor_gt hc).le
  refine { floor_pos := h.floor_pos, floor_le := ?_, le_floor := h.le_floor }
  rw [Penalty.regularize, Scalar.max_eq_max]
  exact (h.floor_le.trans hgrows).trans (le_max_left _ _)

theorem Floored.commit (h : p.Floored b) : p.commit.Floored b := by
  have hfloor : p.commit.rhoFloor = max p.rhoFloor p.rho := Scalar.max_eq_max _ _
  refine { floor_pos := ?_, floor_le := ?_, le_floor := ?_ }
  · rw [hfloor]
    exact h.floor_pos.trans_le (le_max_left _ _)
  · rw [hfloor]
    exact max_le h.floor_le le_rfl
  · rw [hfloor]
    exact h.le_floor.trans (le_max_left _ _)

theorem Floored.grow (h : p.Floored b) (violation previous : Array K) : (p.grow violation previous c).1.Floored b := by
  obtain ⟨hrho, hfloor⟩ := rho_grow (c := c) p violation previous
  exact { floor_pos := hfloor ▸ h.floor_pos, floor_le := hfloor ▸ hrho ▸ h.floor_le, le_floor := hfloor ▸ h.le_floor }

theorem Floored.lowerProximal (hc : c.validate = .ok ()) (h : p.Floored b) (solved : Bool) :
    (p.lowerProximal solved c).1.Floored b := by
  refine { (h.toProximal.lowerProximal hc solved).1 with le_floor := ?_ }
  unfold Penalty.lowerProximal
  split
  · exact h.le_floor
  · exact h.le_floor

end Penalty

/-- Nothing in a solve lowers the weight below the floor that it began with. -/
theorem interchangeable_floored (hc : c.validate = .ok ()) (b : K) :
    Interchangeable P c c.policy (Penalty.Floored b) Eq :=
  interchangeable_self (fun _ h => h.regularize hc) (fun _ h => h.commit) (fun _ _ _ h => h.grow _ _)
    fun _ solved h => h.lowerProximal hc solved

/-! ## Curvature and weight -/

/-- No curvature of the cost is below a number. -/
def CurvesAbove (Q : SparseMatrix K) (n : Nat) (a : K) : Prop :=
  ∀ x : Fin n → K, a * (x ⬝ᵥ x) ≤ x ⬝ᵥ Q.symMatrix n *ᵥ x

theorem proximal_form (Q : SparseMatrix K) (rho : K) (x : Fin n → K) :
    x ⬝ᵥ proximal Q n rho *ᵥ x = x ⬝ᵥ Q.symMatrix n *ᵥ x + rho * (x ⬝ᵥ x) := by
  rw [proximal, Matrix.add_mulVec, dotProduct_add, Matrix.smul_mulVec, Matrix.one_mulVec, dotProduct_smul, smul_eq_mul]

/-- A weight outweighs all curvature that is not below its negative, and no other. -/
theorem posSemidef_proximal_iff {Q : SparseMatrix K} {rho : K} :
    PosSemidef (proximal Q n rho) ↔ CurvesAbove Q n (-rho) := by
  refine forall_congr' fun x => ?_
  rw [proximal_form, neg_mul, neg_le_iff_add_nonneg]

theorem CurvesAbove.mono {Q : SparseMatrix K} {a b : K} (h : CurvesAbove Q n a) (hba : b ≤ a) : CurvesAbove Q n b :=
  fun x => (mul_le_mul_of_nonneg_right hba (dotProduct_self_nonneg x)).trans (h x)

/-- A single variable has one curvature, which is that of the start of the power iteration. -/
theorem mulVec_single (Q : SparseMatrix K) (x : Fin 1 → K) : Q.symMatrix 1 *ᵥ x = Q.symMatrix 1 0 0 • x := by
  ext i
  rw [Subsingleton.elim i 0, Matrix.mulVec, dotProduct, Fin.sum_univ_one, Pi.smul_apply, smul_eq_mul]

theorem curvesAbove_single (Q : SparseMatrix K) : CurvesAbove Q 1 (Q.symMatrix 1 0 0) := by
  intro x
  rw [mulVec_single, dotProduct_smul, smul_eq_mul]

/-! ## Solvers -/

namespace Solver

variable {S : Solver K n m}

theorem floorMargin_eq : (floorMargin : K) = 11 / 10 := by
  have h : (floorMargin : K) = (11 : Nat) / 10 ^ 1 := ExactScalar.exact_ofScientific 11 true 1
  rw [h]
  norm_num

theorem rhoFloor_eq (hc : S.settings.validate = .ok ()) {lambda : K} (h : S.lambdaMin = some lambda) :
    S.rhoFloor = max S.settings.minProximal (floorMargin * -lambda) := by
  have hmin := Settings.minProximal_pos hc
  unfold rhoFloor
  rw [h]
  simp only
  split
  · exact Scalar.max_eq_max _ _
  · next hneg =>
      refine (max_eq_left ((mul_nonpos_of_nonneg_of_nonpos ?_ ?_).trans hmin.le)).symm
      · rw [floorMargin_eq]
        norm_num
      · exact neg_nonpos.mpr (not_lt.mp hneg)

/-- At every iterate of a solve the weight is at least the floor. -/
theorem rhoFloor_le (hc : S.settings.validate = .ok ()) {expired : Nat → Bool} {k : Nat} {r : Run K n m}
    (h : Run.Reaches S.program S.settings expired S.start k r) :
    S.rhoFloor ≤ r.newton.penalty.rho ∧
      S.rhoFloor ≤ (r.pass S.program S.settings expired).1.newton.penalty.rho := by
  have hsim := interchangeable_floored (P := S.program) hc S.rhoFloor
  have hr := h.penalty hsim (Penalty.floored_initial (rhoFloor_pos hc))
  exact ⟨hr.le_rho, (Run.penalty_pass hsim hr expired).le_rho⟩

end Solver

end AugLag
