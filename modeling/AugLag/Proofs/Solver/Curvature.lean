import AugLag.Proofs.Newton.Negative
import AugLag.Proofs.Solver.Convex

/-!
# The curvature check

Unless a problem may be nonconvex, its first Newton matrix is factored before any residual is looked at. The matrix is
not that of the cost. It has the proximal weight on its diagonal, a larger one once a pivot was zero, and the squares of
the active rows. So a start is refused where the cost curves down by more than that in all directions, and accepted where
the weight outweighs it.
-/

namespace AugLag

open scoped Matrix

variable {K : Type} [ExactScalar K] {n m : Nat} {P : ScaledProgram K n m} {c : Settings K}

/-! ## Weights that are tried -/

/-- The penalties after `k` failed factorizations. -/
def Penalty.raised (p : Penalty K m) (c : Settings K) (k : Nat) : Penalty K m := (fun p => p.regularize c)^[k] p

/-! ## Factorizations -/

theorem hessian_form (Q A : SparseMatrix K) (active : Vector Bool m) (sigma : Vector K m) (rho : K) (x : Fin n → K) :
    x ⬝ᵥ hessian Q A n active sigma rho *ᵥ x = x ⬝ᵥ proximal Q n rho *ᵥ x +
      ∑ r, activePenalty active sigma r * ((A.toMatrix m n *ᵥ x) r * (A.toMatrix m n *ᵥ x) r) := by
  have hcondensed : hessian Q A n active sigma rho =
      condensed (proximal Q n rho) (A.toMatrix m n) fun r => (activePenalty active sigma r)⁻¹ := by
    simp only [hessian, condensed, inv_inv]
  rw [hcondensed, Saddle.condensed_form]
  simp only [inv_inv]

namespace NewtonState.Ready

variable {s : NewtonState K n m} {active : Vector Bool m}

theorem posDef_of_update (h : s.Ready P) (hok : (s.update P active c).2.1 = .ok ()) :
    PosDef (hessian P.Q P.A n active s.penalty.sigma s.penalty.rho) := by
  obtain ⟨hconsistent, hserves, -⟩ := h.consistent.answer_spec (h.positivePenalties active) c
  exact ((hserves hok).solves hconsistent (h.positivePenalties active)).1

/-- Of the weights that are tried, one has made the matrix positive definite. -/
theorem posDef_of_factorWithRetries (h : s.Ready P) {tries failures k : Nat}
    (hok : (NewtonState.factorWithRetries P active c tries failures s).2.1 = .ok k) :
    ∃ k ≤ tries, PosDef (hessian P.Q P.A n active s.penalty.sigma (s.penalty.raised c k).rho) := by
  induction tries generalizing failures s with
  | zero =>
      refine ⟨0, le_rfl, h.posDef_of_update (c := c) ?_⟩
      unfold NewtonState.factorWithRetries at hok
      simp only at hok
      cases hout : (s.update P active c).2.1 with
      | ok u => rfl
      | error e =>
          rw [hout] at hok
          cases hok
  | succ tries ih =>
      unfold NewtonState.factorWithRetries at hok
      simp only at hok
      cases hout : (s.update P active c).2.1 with
      | ok u => exact ⟨0, Nat.zero_le _, h.posDef_of_update hout⟩
      | error e =>
          rw [hout] at hok
          -- the next attempt differs in its weight only, and so it starts from a state that is as good
          have hraised : Ready { (s.update P active c).1 with
              penalty := (s.update P active c).1.penalty.regularize c } P := (h.update active c).withPenalty h.positive
          obtain ⟨k, hk, hpd⟩ := ih hraised hok
          exact ⟨k + 1, Nat.succ_le_succ hk, hpd⟩

theorem posDef_of_factor (h : s.Ready P) {raised : Bool} (hok : (s.factor P active c).2.1 = .ok raised) :
    ∃ k ≤ c.maxFactorizationRetries,
      PosDef (hessian P.Q P.A n active s.penalty.sigma (s.penalty.raised c k).rho) := by
  unfold NewtonState.factor at hok
  simp only at hok
  cases hout : (NewtonState.factorWithRetries P active c c.maxFactorizationRetries 0 s).2.1 with
  | ok k => exact h.posDef_of_factorWithRetries hout
  | error e =>
      rw [hout] at hok
      cases hok

theorem posDef_of_factorInitial (h : s.Ready P) (hok : (s.factorInitial P active c).2.1 = .ok ()) :
    ∃ k ≤ c.maxFactorizationRetries,
      PosDef (hessian P.Q P.A n active s.penalty.sigma (s.penalty.raised c k).rho) := by
  have hretried {raised : Bool} (hfactor : ((s.update P active c).1.factor P active c).2.1 = .ok raised) :=
    (h.update active c).posDef_of_factor hfactor
  unfold NewtonState.factorInitial at hok
  simp only at hok
  cases hout : (s.update P active c).2.1 with
  | ok u => exact ⟨0, Nat.zero_le _, h.posDef_of_update hout⟩
  | error e =>
      rw [hout] at hok
      cases hfactor : ((s.update P active c).1.factor P active c).2.1 with
      | ok raised => exact hretried hfactor
      | error e' =>
          -- neither of the two ways to go on succeeds
          rw [hfactor] at hok
          cases e with
          | notPositiveDefinite =>
              simp only at hok
              split at hok
              · cases hok
              · cases hok
          | factor cause => cases hok

theorem factorInitial_eq_ok (h : s.Ready P) (hproximal : PosDef (proximal P.Q n s.penalty.rho)) :
    (s.factorInitial P active c).2.1 = .ok () := by
  unfold NewtonState.factorInitial
  simp only [h.update_eq_ok hproximal]

end NewtonState.Ready

/-- A matrix with the wrong signs is not tried again with a larger weight. -/
theorem NewtonState.factorInitial_of_notPositiveDefinite {s : NewtonState K n m} {active : Vector Bool m}
    (hrho : 0 < s.penalty.rho) (hupdate : (s.update P active c).2.1 = .error .notPositiveDefinite) :
    (s.factorInitial P active c).2.1 = .error .notPositiveDefinite := by
  have hkept : 0 < (s.update P active c).1.penalty.rho := hrho
  unfold factorInitial
  simp only [hupdate, if_pos hkept]

/-! ## Starts -/

namespace Run

variable {r : Run K n m}

theorem complete_of_refused (hconvex : c.nonconvex = false) {e : NewtonError} (expired : Nat → Bool)
    (hrefused : ((r.evaluate P).newton.factorInitial P (r.evaluate P).evaluation.active c).2.1 = .error e) :
    (r.complete P c expired).2.1 = .nonConvex := by
  unfold complete
  simp only [hconvex, Bool.false_eq_true, if_false]
  split
  · rfl
  · next heq =>
      rw [heq] at hrefused
      cases hrefused

/-- A factorization leaves the residuals alone that the verdict rests on. -/
theorem isSolved_measure_congr {newton : NewtonState K n m} (hsigma : newton.penalty.sigma = r.newton.penalty.sigma)
    (epsAbs epsRel : K) : (({ r.evaluate P with newton } : Run K n m).measure P).residuals.isSolved epsAbs epsRel =
      (r.measure P).residuals.isSolved epsAbs epsRel := by
  simp only [measure, evaluate, hsigma]
  rfl

theorem complete_of_accepted (hc : c.validate = .ok ()) (hconvex : c.nonconvex = false) (expired : Nat → Bool)
    (hsolved : (r.measure P).residuals.isSolved c.epsAbs c.epsRel = true)
    (hok : ((r.evaluate P).newton.factorInitial P (r.evaluate P).evaluation.active c).2.1 = .ok ()) :
    (r.complete P c expired).2.1 = .solved ∧ (r.complete P c expired).1.info.iter = r.info.iter := by
  have hpasses : 0 < passLimit c := Nat.add_pos_right _ (Settings.maxOuterIter_pos hc)
  have hsigma := NewtonState.sigma_factorInitial (P := P) (c := c) (r.evaluate P).newton (r.evaluate P).evaluation.active
  unfold complete
  simp only [hconvex, Bool.false_eq_true, if_false]
  split
  · next heq =>
      rw [heq] at hok
      cases hok
  · next newton _ heq =>
      rw [heq] at hsigma
      have hsolved' := (isSolved_measure_congr (P := P) (r := r) hsigma c.epsAbs c.epsRel).trans hsolved
      rw [iterate_of_solved hsolved' expired hpasses]
      exact ⟨rfl, rfl⟩

end Run

/-! ## Curvature of a problem -/

namespace ScaledProgram

variable {S : ScaledProgram K n m} {posed : PosedProblem K n m} {limit : K}

/-- A direction of the problem in scaled units. -/
def toScaled (S : ScaledProgram K n m) (v : Fin n → K) : Fin n → K := fun j => v j * S.scaling.dinv.get j

theorem IsScaling.unscale_toScaled (h : S.IsScaling posed limit) (v : Fin n → K) :
    (fun j => S.toScaled v j * S.scaling.d.get j) = v := by
  funext j
  rw [toScaled, h.dinv_eq, inv_mul_cancel_right₀ (h.d_pos j).ne']

theorem IsScaling.toScaled_ne_zero (h : S.IsScaling posed limit) {v : Fin n → K} (hv : v ≠ 0) : S.toScaled v ≠ 0 := by
  intro hzero
  refine hv ?_
  rw [← h.unscale_toScaled v, hzero]
  exact funext fun j => zero_mul _

theorem IsScaling.exists_toScaled (h : S.IsScaling posed limit) {x : Fin n → K} (hx : x ≠ 0) :
    ∃ v, v ≠ 0 ∧ S.toScaled v = x := by
  have hback : S.toScaled (fun j => x j * S.scaling.d.get j) = x := by
    funext j
    rw [toScaled, h.dinv_eq, mul_inv_cancel_right₀ (h.d_pos j).ne']
  refine ⟨_, fun hzero => hx ?_, hback⟩
  rw [← hback, hzero]
  exact funext fun j => zero_mul _

end ScaledProgram

namespace Solver

variable {S : Solver K n m} {posed : PosedProblem K n m} {limit : K}

/-- The rows whose penalties enter the first Newton matrix. -/
def startActive (S : Solver K n m) : Vector Bool m := (S.start.evaluate S.program).evaluation.active

/-- The first Newton matrix is factored, if need be with a raised weight. -/
def StartFactors (S : Solver K n m) : Prop :=
  (S.start.newton.factorInitial S.program S.startActive S.settings).2.1 = .ok ()

/-- The proximal weight after `k` failed factorizations at the start. -/
def startWeight (S : Solver K n m) (k : Nat) : K := (S.start.newton.penalty.raised S.settings k).rho

/-- The start passes the test on which a solve ends as solved. -/
def StartsSolved (S : Solver K n m) : Prop :=
  (S.start.measure S.program).residuals.isSolved S.settings.epsAbs S.settings.epsRel = true

/-- How the cost curves along `v` in scaled units, with a proximal weight. -/
def damped (S : Solver K n m) (posed : PosedProblem K n m) (rho : K) (v : Fin n → K) : K :=
  S.program.scaling.c * (v ⬝ᵥ posed.Q *ᵥ v) + rho * ∑ j, S.program.toScaled v j ^ 2

/-- How the function curves along `v` whose minimum the first Newton step would be. -/
def curvature (S : Solver K n m) (posed : PosedProblem K n m) (rho : K) (v : Fin n → K) : K :=
  S.damped posed rho v + ∑ i, activePenalty S.startActive S.start.newton.penalty.sigma i *
    ((posed.A *ᵥ v) i * S.program.scaling.e.get i) ^ 2

theorem damped_eq (h : S.program.IsScaling posed limit) (rho : K) (v : Fin n → K) : S.damped posed rho v =
    S.program.toScaled v ⬝ᵥ proximal S.program.Q n rho *ᵥ S.program.toScaled v := by
  rw [proximal, Matrix.add_mulVec, dotProduct_add, Matrix.smul_mulVec, Matrix.one_mulVec, dotProduct_smul, smul_eq_mul,
    h.cost_form, h.unscale_toScaled, damped]
  simp only [ScaledProgram.toScaled, dotProduct, pow_two]

theorem curvature_eq (h : S.program.IsScaling posed limit) (rho : K) (v : Fin n → K) : S.curvature posed rho v =
    S.program.toScaled v ⬝ᵥ
      hessian S.program.Q S.program.A n S.startActive S.start.newton.penalty.sigma rho *ᵥ S.program.toScaled v := by
  have hrows (i : Fin m) : (posed.A *ᵥ v) i * S.program.scaling.e.get i =
      (S.program.A.toMatrix m n *ᵥ S.program.toScaled v) i := by
    have hunscaled := h.mulVec_constraints (S.program.toScaled v)
    rw [h.unscale_toScaled] at hunscaled
    rw [congrFun hunscaled i, h.einv_eq, inv_mul_cancel_right₀ (h.e_pos i).ne']
  rw [hessian_form, curvature, damped_eq h]
  simp only [hrows, pow_two]

/-! ## Refusals -/

/-- A status that is not that of a limit is reported as it is. -/
theorem status_of_complete {status : Status} (hlimit : status.isLimit = false) {expired : Nat → Bool}
    (h : (S.start.complete S.program S.settings expired).2.1 = status) : (S.run expired).2.info.status = status := by
  show Run.reduced (S.start.complete S.program S.settings expired).1 S.program S.settings
    (S.start.complete S.program S.settings expired).2.1 = status
  rw [h, Run.reduced, hlimit]
  rfl

theorem status_of_not_startFactors (hconvex : S.settings.nonconvex = false) (h : ¬S.StartFactors)
    (expired : Nat → Bool) : (S.run expired).2.info.status = .nonConvex := by
  obtain ⟨e, herror⟩ : ∃ e, (S.start.newton.factorInitial S.program S.startActive S.settings).2.1 = .error e := by
    cases houtcome : (S.start.newton.factorInitial S.program S.startActive S.settings).2.1 with
    | error e => exact ⟨e, rfl⟩
    | ok u => exact absurd houtcome h
  exact status_of_complete rfl (Run.complete_of_refused (r := S.start) hconvex expired herror)

theorem run_of_startFactors (hc : S.settings.validate = .ok ()) (hconvex : S.settings.nonconvex = false)
    (hsolved : S.StartsSolved) (hfactors : S.StartFactors) (expired : Nat → Bool) :
    (S.run expired).2.info.status = .solved ∧ (S.run expired).2.info.iter = 0 := by
  obtain ⟨hstatus, hiter⟩ := Run.complete_of_accepted hc hconvex expired hsolved hfactors
  exact ⟨status_of_complete rfl hstatus, hiter⟩

theorem StartFactors.exists_curvature_pos (hfactors : S.StartFactors) (h : S.program.IsScaling posed limit)
    (hc : S.settings.validate = .ok ()) (hengine : S.engine.Consistent S.program.Q S.program.A) :
    ∃ k ≤ S.settings.maxFactorizationRetries, ∀ v, v ≠ 0 → 0 < S.curvature posed (S.startWeight k) v := by
  obtain ⟨k, hk, hposDef⟩ := (ready_start hc hengine).posDef_of_factorInitial hfactors
  refine ⟨k, hk, fun v hv => ?_⟩
  rw [curvature_eq h]
  exact hposDef _ (h.toScaled_ne_zero hv)

/-- A cost that curves down in all directions is refused, whatever weights could be tried. -/
theorem not_startFactors_of_curvature_neg (h : S.program.IsScaling posed limit) (hc : S.settings.validate = .ok ())
    (hengine : S.engine.Consistent S.program.Q S.program.A) (hn : 0 < n)
    (hneg : ∀ v, v ≠ 0 → S.curvature posed (S.startWeight 0) v < 0) : ¬S.StartFactors := by
  let request : NewtonRequest K m :=
    { active := S.startActive, sigma := S.start.newton.penalty.sigma, rho := S.start.newton.penalty.rho }
  have hsigma : request.PositivePenalties := Penalty.positive_initial hc S.rhoFloor
  have hmatrix : PosDef (-request.matrix S.program.Q S.program.A n) := by
    intro x hx
    obtain ⟨v, hv, rfl⟩ := h.exists_toScaled hx
    rw [Matrix.neg_mulVec, dotProduct_neg, neg_pos]
    exact (curvature_eq h (S.startWeight 0) v).symm.trans_lt (hneg v hv)
  have hupdate : (S.start.newton.update S.program S.startActive S.settings).2.1 = .error .notPositiveDefinite :=
    hengine.answer_negative hsigma hn hmatrix S.settings
  have hrefused := NewtonState.factorInitial_of_notPositiveDefinite
    (Penalty.proximal_initial (rhoFloor_pos hc)).rho_pos hupdate
  intro hfactors
  rw [StartFactors, hrefused] at hfactors
  cases hfactors

theorem startFactors_of_damped_pos (h : S.program.IsScaling posed limit) (hc : S.settings.validate = .ok ())
    (hengine : S.engine.Consistent S.program.Q S.program.A) (hpos : ∀ v, v ≠ 0 → 0 < S.damped posed (S.startWeight 0) v) :
    S.StartFactors := by
  refine (ready_start hc hengine).factorInitial_eq_ok fun x hx => ?_
  obtain ⟨v, hv, rfl⟩ := h.exists_toScaled hx
  have hdamped := hpos v hv
  rwa [damped_eq h] at hdamped

end Solver
end AugLag
