import Mathlib
import AugLag.Proofs.Problem.Bounds
import AugLag.Proofs.Solver.Curvature
import AugLag.Proofs.Solver.LineSearch
import AugLag.Proofs.Solver.Optimality

/-!
# Directions of descent

A Newton step goes along the solution of its system, whose right hand side is the gradient for the weight that was
factored in the end. The line search puts the slope together from the pieces of the bounds. Both agree: the slope is the
product of the direction with the gradient, and so it is negative unless the gradient vanishes.
-/

namespace AugLag

open scoped Matrix

variable {K : Type} [ExactScalar K] {n m : Nat} {P : ScaledProgram K n m} {c : Settings K}

/-! ## Steps that are factored -/

namespace NewtonState

variable {s s' : NewtonState K n m} {p p' : Point K n m} {e : Evaluation K n m} {active : Vector Bool m}

/-- The gradient that a step starts from, which is taken anew if the proximal weight was raised. -/
def stepGradient (s : NewtonState K n m) (p : Point K n m) (e : Evaluation K n m) (raised : Bool) : Vector K n :=
  if raised then Evaluation.gradientAt e.stationarity p s.penalty.rho else e.gradient

/-- The direction of a step whose system has been factored. -/
def stepDirection (s : NewtonState K n m) (p : Point K n m) (e : Evaluation K n m) (raised : Bool) : Vector K n :=
  s.engine.solve (Vec.neg (s.stepGradient p e raised))

/-- The line search along a direction. -/
def searchAlong (s : NewtonState K n m) (P : ScaledProgram K n m) (p : Point K n m) (d : Vector K n) : LineSearch K m :=
  s.lineSearch P p d (P.A.mulAdd (Vec.zeros m) d 1 0) (P.Q.symMulAdd (Vec.zeros n) d 1 0)

/-- The point that a step of length `τ` along a direction leads to. -/
def moved (P : ScaledProgram K n m) (p : Point K n m) (τ : K) (d : Vector K n) : Point K n m :=
  p.step τ d (P.A.mulAdd (Vec.zeros m) d 1 0) (P.Q.symMulAdd (Vec.zeros n) d 1 0)

theorem moved_x (P : ScaledProgram K n m) (p : Point K n m) (τ : K) (d : Vector K n) :
    (moved P p τ d).x.get = p.x.get + τ • d.get := by
  simp only [moved, Point.step, get_combine_eq]
  rw [one_smul, one_smul, zero_smul, add_zero, add_comm]

/-- The length of a step along a direction, which is zero where nothing was found. -/
def stepLength (s : NewtonState K n m) (P : ScaledProgram K n m) (p : Point K n m) (c : Settings K) (d : Vector K n) :
    K :=
  ((s.searchAlong P p d).search? c).getD 0

/-- Once its system is factored, a step goes along its direction as far as the line search says. -/
theorem step_of_factor {raised : Bool} {log : List (Event K)} (h : s.factor P e.active c = (s', .ok raised, log))
    (p : Point K n m) {d : Vector K n} (hd : d = s'.stepDirection p e raised) :
    ∃ log', s.step P p e c = (s', .ok (s'.stepLength P p c d, moved P p (s'.stepLength P p c d) d), log') := by
  rw [step, h, hd, stepLength]
  dsimp only
  split
  · next τ hsearch =>
      have hfound : (s'.searchAlong P p (s'.stepDirection p e raised)).search? c = some τ := hsearch
      rw [hfound]
      exact ⟨log, rfl⟩
  · next hsearch =>
      have hnone : (s'.searchAlong P p (s'.stepDirection p e raised)).search? c = none := hsearch
      rw [hnone]
      exact ⟨log ++ [.noDecrease], rfl⟩

theorem step_eq_ok {τ : K} {log : List (Event K)} (h : s.step P p e c = (s', .ok (τ, p'), log)) :
    ∃ raised log', s.factor P e.active c = (s', .ok raised, log') ∧
      τ = s'.stepLength P p c (s'.stepDirection p e raised) ∧ p' = moved P p τ (s'.stepDirection p e raised) := by
  generalize hfactor : s.factor P e.active c = result
  obtain ⟨s₁, outcome, log₁⟩ := result
  cases outcome with
  | error err =>
      rw [step, hfactor] at h
      cases h
  | ok raised =>
      obtain ⟨log', hstep⟩ := step_of_factor hfactor p rfl
      rw [h] at hstep
      cases hstep
      exact ⟨raised, log₁, rfl, rfl, rfl⟩

/-! ## What is factored -/

theorem update_spec (h : s.Ready P) (hok : (s.update P active c).2.1 = .ok ()) :
    (s.update P active c).1.engine.Serves P.Q P.A (s.request active) :=
  (h.consistent.answer_spec (h.positivePenalties active) c).2.1 hok

/-- After a number of failures the system is that of the raised weight. Without one the weight is what it was. -/
theorem Ready.factorWithRetries_spec (h : s.Ready P) {tries failures k : Nat}
    (hok : (NewtonState.factorWithRetries P active c tries failures s).2.1 = .ok k) :
    (NewtonState.factorWithRetries P active c tries failures s).1.engine.Serves P.Q P.A
        ((NewtonState.factorWithRetries P active c tries failures s).1.request active) ∧ failures ≤ k ∧
      (k = failures → (NewtonState.factorWithRetries P active c tries failures s).1.penalty = s.penalty) := by
  induction tries generalizing failures s with
  | zero =>
      unfold NewtonState.factorWithRetries at hok ⊢
      simp only at hok ⊢
      cases hout : (s.update P active c).2.1 with
      | ok u =>
          rw [hout] at hok
          cases hok
          exact ⟨update_spec h hout, le_rfl, fun _ => rfl⟩
      | error e =>
          rw [hout] at hok
          cases hok
  | succ tries ih =>
      unfold NewtonState.factorWithRetries at hok ⊢
      simp only at hok ⊢
      cases hout : (s.update P active c).2.1 with
      | ok u =>
          rw [hout] at hok
          cases hok
          exact ⟨update_spec h hout, le_rfl, fun _ => rfl⟩
      | error e =>
          rw [hout] at hok
          have hraised : Ready { (s.update P active c).1 with
              penalty := (s.update P active c).1.penalty.regularize c } P := (h.update active c).withPenalty h.positive
          obtain ⟨hserves, hle, -⟩ := ih hraised hok
          exact ⟨hserves, by omega, fun heq => by omega⟩

/-- A factorization that succeeds leaves the system of its last weight behind, which is the old one unless it reports
that it was raised. -/
theorem Ready.factor_spec (h : s.Ready P) {raised : Bool} (hok : (s.factor P active c).2.1 = .ok raised) :
    (s.factor P active c).1.engine.Serves P.Q P.A ((s.factor P active c).1.request active) ∧
      (raised = false → (s.factor P active c).1.penalty.rho = s.penalty.rho) := by
  unfold NewtonState.factor at hok ⊢
  simp only at hok ⊢
  cases hout : (NewtonState.factorWithRetries P active c c.maxFactorizationRetries 0 s).2.1 with
  | error e =>
      rw [hout] at hok
      cases hok
  | ok k =>
      obtain ⟨hserves, -, hkept⟩ := h.factorWithRetries_spec hout
      rw [hout] at hok
      cases k with
      | zero =>
          cases hok
          exact ⟨hserves, fun _ => congrArg Penalty.rho (hkept rfl)⟩
      | succ k =>
          cases hok
          exact ⟨hserves, nofun⟩

/-- The gradient of a step is that of the subproblem for the weight that was factored in the end. -/
theorem stepGradient_eq {raised : Bool} (hsigma : s'.penalty.sigma = s.penalty.sigma)
    (hrho : raised = false → s'.penalty.rho = s.penalty.rho) :
    s'.stepGradient p (Evaluation.ofPoint P p s.penalty.sigma s.penalty.rho) raised =
      (Evaluation.ofPoint P p s'.penalty.sigma s'.penalty.rho).gradient := by
  cases raised with
  | true =>
      rw [hsigma]
      rfl
  | false =>
      rw [hsigma, hrho rfl]
      rfl

theorem Ready.mulVec_stepDirection (h : s'.Ready P) (hserves : s'.engine.Serves P.Q P.A (s'.request active))
    (raised : Bool) :
    PosDef (hessian P.Q P.A n active s'.penalty.sigma s'.penalty.rho) ∧
      hessian P.Q P.A n active s'.penalty.sigma s'.penalty.rho *ᵥ (s'.stepDirection p e raised).get =
        -(s'.stepGradient p e raised).get := by
  obtain ⟨hposDef, hsolves⟩ := hserves.solves h.consistent (h.positivePenalties active)
  refine ⟨hposDef, ((hsolves _ _).mpr rfl).trans ?_⟩
  ext j
  simp [Vec.neg]

end NewtonState

/-! ## The slope of the search -/

/-- No absent bound of row `i` cuts the value off. -/
structure ScaledProgram.Spares (P : ScaledProgram K n m) (w : K) (i : Fin m) : Prop where
  lower : P.lowerFinite.get i = false → P.bmin.get i ≤ w
  upper : P.upperFinite.get i = false → w ≤ P.bmax.get i

theorem ScaledProgram.Bounded.spares (h : P.Bounded) {w : K} {i : Fin m}
    (hw : P.lowerFinite.get i = false ∨ P.upperFinite.get i = false → |w| ≤ P.limit) : P.Spares w i where
  lower habsent := by
    have hle := hw (.inl habsent)
    rw [h.lower_absent ((abs_nonneg w).trans hle) i habsent]
    exact neg_le_of_abs_le hle
  upper habsent := by
    have hle := hw (.inr habsent)
    rw [h.upper_absent ((abs_nonneg w).trans hle) i habsent]
    exact le_of_abs_le hle

namespace NewtonState

variable {s : NewtonState K n m} {p : Point K n m}

theorem proper_searchAlong (hpos : s.penalty.Positive) (h : P.Bounded) (d : Vector K n) :
    (s.searchAlong P p d).Proper where
  sigma_pos := hpos
  bmin_le_bmax := h.bmin_le_bmax

theorem target_searchAlong (d : Vector K n) (i : Fin m) :
    (s.searchAlong P p d).target 0 i = (Evaluation.shifted p s.penalty.sigma).get i := by
  rw [LineSearch.target, zero_mul, add_zero, Evaluation.shifted, Vec.get_ofFn]
  rfl

/-- The push of the bounds is the next multiplier, unless an absent bound cuts the row off. -/
theorem push_eq_multiplier (hpos : s.penalty.Positive) (h : P.Bounded) (d : Vector K n) {i : Fin m}
    (hspares : P.Spares ((Evaluation.shifted p s.penalty.sigma).get i) i) :
    (s.searchAlong P p d).sigma.get i * ((s.searchAlong P p d).above 0 i - (s.searchAlong P p d).below 0 i) =
      (Evaluation.ofPoint P p s.penalty.sigma s.penalty.rho).multiplier.get i := by
  rw [Evaluation.multiplier_eq hpos, Evaluation.get_z, LineSearch.above, LineSearch.below, target_searchAlong]
  generalize (Evaluation.shifted p s.penalty.sigma).get i = w at *
  show s.penalty.sigma.get i * ((if P.upperFinite.get i then max 0 (w - P.bmax.get i) else 0) -
    if P.lowerFinite.get i then max 0 (P.bmin.get i - w) else 0) = _
  refine congrArg _ ?_
  unfold Scalar.clamp
  by_cases hlow : w < P.bmin.get i
  · have hlower : P.lowerFinite.get i = true := by
      by_contra habsent
      exact hlow.not_ge (hspares.lower (Bool.not_eq_true _ ▸ habsent))
    have hupper : (if P.upperFinite.get i then max 0 (w - P.bmax.get i) else 0) = 0 :=
      LineSearch.violation_eq_zero fun hu => by linarith [h.bmin_le_bmax i hlower hu]
    rw [hupper, if_pos hlower, if_pos hlow, max_eq_right (by linarith)]
    ring
  · have hlower : (if P.lowerFinite.get i then max 0 (P.bmin.get i - w) else 0) = 0 :=
      LineSearch.violation_eq_zero fun _ => by linarith
    rw [hlower, if_neg hlow, sub_zero]
    by_cases hhigh : P.bmax.get i < w
    · have hupper : P.upperFinite.get i = true := by
        by_contra habsent
        exact hhigh.not_ge (hspares.upper (Bool.not_eq_true _ ▸ habsent))
      rw [if_pos hupper, if_pos hhigh, max_eq_right (by linarith)]
    · rw [if_neg hhigh, sub_self]
      exact LineSearch.violation_eq_zero fun _ => by linarith

theorem beta_searchAlong (d : Vector K n) : (s.searchAlong P p d).beta =
    ∑ j, d.get j * (p.Qx.get j + P.q.get j + s.penalty.rho * (p.x.get j - p.center.get j)) := by
  show finiteOrZero ((List.finRange n).foldl _ 0) = _
  rw [finiteOrZero, Scalar.isFinite_eq_true, if_pos rfl, SparseMatrix.foldl_add_eq_sum, zero_add,
    SparseMatrix.sum_map_finRange]

theorem eta_searchAlong (hQ : P.Q.Upper) (hn : P.Q.cols = n) (d : Vector K n) : (s.searchAlong P p d).eta =
    d.get ⬝ᵥ P.Q.symMatrix n *ᵥ d.get + s.penalty.rho * ∑ j, d.get j ^ 2 := by
  show finiteOrZero (Vec.dot d _ + s.penalty.rho * Vec.sumSq d) = _
  rw [finiteOrZero, Scalar.isFinite_eq_true, if_pos rfl, Vec.sumSq, Vec.dot_eq_dotProduct, Vec.dot_eq_dotProduct,
    get_symMulAdd_one hQ hn, dotProduct]
  simp only [dotProduct, pow_two]

/-- The slope is the product of the direction with the gradient of the subproblem. -/
theorem slope_searchAlong (hpos : s.penalty.Positive) (h : P.Bounded) (d : Vector K n)
    (hspares : ∀ i, P.Spares ((Evaluation.shifted p s.penalty.sigma).get i) i) :
    (s.searchAlong P p d).initialSlope.b =
      d.get ⬝ᵥ (Evaluation.ofPoint P p s.penalty.sigma s.penalty.rho).gradient.get := by
  have hrows : ∑ i, (s.searchAlong P p d).Ad.get i *
      ((s.searchAlong P p d).sigma.get i * ((s.searchAlong P p d).above 0 i - (s.searchAlong P p d).below 0 i)) =
      d.get ⬝ᵥ (Evaluation.ofPoint P p s.penalty.sigma s.penalty.rho).force.get := by
    have hforce : (Evaluation.ofPoint P p s.penalty.sigma s.penalty.rho).force.get =
        (P.A.toMatrix m n)ᵀ *ᵥ (Evaluation.ofPoint P p s.penalty.sigma s.penalty.rho).multiplier.get :=
      funext Evaluation.get_force
    rw [hforce, Matrix.dotProduct_mulVec, Matrix.vecMul_transpose, dotProduct]
    refine Finset.sum_congr rfl fun i _ => ?_
    rw [push_eq_multiplier hpos h d (hspares i)]
    exact congrArg (· * _) (congrFun (get_mulAdd_one P.A d) i)
  rw [← LineSearch.slopeAt_zero, LineSearch.slopeAt_zero_eq_sum (proper_searchAlong hpos h d).sigma_pos, hrows,
    beta_searchAlong, dotProduct, dotProduct, ← Finset.sum_add_distrib]
  refine Finset.sum_congr rfl fun j _ => ?_
  have hgradient : (Evaluation.ofPoint P p s.penalty.sigma s.penalty.rho).gradient.get j =
      (Evaluation.ofPoint P p s.penalty.sigma s.penalty.rho).stationarity.get j +
        s.penalty.rho * (p.x.get j - p.center.get j) := Vec.get_ofFn _ j
  rw [hgradient, Evaluation.get_stationarity]
  ring

/-- Once a system is factored, the search falls along the solution as steeply as the Newton matrix curves. -/
theorem Ready.slope_of_factor (hready : s.Ready P) (h : P.Bounded)
    (hspares : ∀ i, P.Spares ((Evaluation.shifted p s.penalty.sigma).get i) i) {s' : NewtonState K n m}
    {active : Vector Bool m} {raised : Bool} {log : List (Event K)}
    (hfactor : s.factor P active c = (s', .ok raised, log)) {d : Vector K n} {g : Fin n → K}
    (hd : d = s'.stepDirection p (Evaluation.ofPoint P p s.penalty.sigma s.penalty.rho) raised)
    (hg : g = (Evaluation.ofPoint P p s'.penalty.sigma s'.penalty.rho).gradient.get) :
    (s'.searchAlong P p d).initialSlope.b = d.get ⬝ᵥ g ∧
      (s'.searchAlong P p d).initialSlope.b =
        -(d.get ⬝ᵥ hessian P.Q P.A n active s'.penalty.sigma s'.penalty.rho *ᵥ d.get) ∧
      (g ≠ 0 → (s'.searchAlong P p d).initialSlope.b < 0) := by
  have hok : (s.factor P active c).2.1 = .ok raised := by rw [hfactor]
  have hready' := hready.factor (c := c) active
  have hsigma := sigma_factor (P := P) (c := c) s active
  obtain ⟨hserves, hrho⟩ := hready.factor_spec hok
  rw [hfactor] at hready' hsigma hserves hrho
  obtain ⟨hposDef, hsolves⟩ := hready'.mulVec_stepDirection (p := p)
    (e := Evaluation.ofPoint P p s.penalty.sigma s.penalty.rho) hserves raised
  rw [stepGradient_eq hsigma hrho, ← hd, ← hg] at hsolves
  have hslope : (s'.searchAlong P p d).initialSlope.b = d.get ⬝ᵥ g :=
    hg ▸ slope_searchAlong hready'.positive h d (hsigma ▸ hspares)
  have hform : (s'.searchAlong P p d).initialSlope.b =
      -(d.get ⬝ᵥ hessian P.Q P.A n active s'.penalty.sigma s'.penalty.rho *ᵥ d.get) := by
    rw [hslope, hsolves, dotProduct_neg, neg_neg]
  refine ⟨hslope, hform, fun hne => ?_⟩
  have hd_ne : d.get ≠ 0 := fun hzero => hne (by rw [← neg_eq_zero, ← hsolves, hzero, Matrix.mulVec_zero])
  rw [hform, neg_lt_zero]
  exact hposDef _ hd_ne

end NewtonState

/-! ## Passes -/

theorem Run.Begins.ready {start r : Run K n m} {expired : Nat → Bool} (h : Run.Begins P c expired start r)
    (hc : c.validate = .ok ()) (hstart : start.newton.Ready P) : r.newton.Ready P := by
  have hevaluate : (start.evaluate P).newton.Ready P := hstart
  induction h with
  | unfactored _ => exact hstart
  | factored _ hinitial =>
      have hfactored := hevaluate.factorInitial (c := c) (start.evaluate P).evaluation.active
      rwa [hinitial] at hfactored
  | next _ _ ih => exact Run.ready_pass hc ih expired

/-! ## The augmented Lagrangian -/

section Lagrangian

variable {P : ScaledProgram ℝ n m} {c : Settings ℝ}

/-- The proximal augmented Lagrangian for the multipliers and the center of a point. -/
noncomputable def ScaledProgram.lagrangian (P : ScaledProgram ℝ n m) (p : Point ℝ n m) (penalty : Penalty ℝ m)
    (x : Fin n → ℝ) : ℝ :=
  0.5 * x ⬝ᵥ P.Q.symMatrix n *ᵥ x + P.q.get ⬝ᵥ x + 0.5 * penalty.rho * ∑ j, (x j - p.center.get j) ^ 2 +
    ∑ i, 0.5 * penalty.sigma.get i *
      Metric.infDist ((P.A.toMatrix m n *ᵥ x) i + p.y.get i / penalty.sigma.get i)
        (LineSearch.interval (P.lowerFinite.get i) (P.upperFinite.get i) (P.bmin.get i) (P.bmax.get i)) ^ 2

namespace NewtonState

variable {s : NewtonState ℝ n m} {p : Point ℝ n m}

/-- Along a direction the Lagrangian is the function that is searched. -/
theorem lagrangian_sub (hQ : P.Q.Upper) (hn : P.Q.cols = n) (hp : p.Carries P) (d : Vector ℝ n) (t : ℝ) :
    P.lagrangian p s.penalty (p.x.get + t • d.get) - P.lagrangian p s.penalty p.x.get =
      (s.searchAlong P p d).psi t - (s.searchAlong P p d).psi 0 := by
  have hproximal : ∑ j, ((p.x.get + t • d.get) j - p.center.get j) ^ 2 = ∑ j, (p.x.get j - p.center.get j) ^ 2 +
      (2 * t * ∑ j, d.get j * (p.x.get j - p.center.get j) + t ^ 2 * ∑ j, d.get j ^ 2) := by
    rw [Finset.mul_sum, Finset.mul_sum, ← Finset.sum_add_distrib, ← Finset.sum_add_distrib]
    refine Finset.sum_congr rfl fun j _ => ?_
    rw [Pi.add_apply, Pi.smul_apply, smul_eq_mul]
    ring
  have hbeta : (s.searchAlong P p d).beta = d.get ⬝ᵥ P.Q.symMatrix n *ᵥ p.x.get + P.q.get ⬝ᵥ d.get +
      s.penalty.rho * ∑ j, d.get j * (p.x.get j - p.center.get j) := by
    rw [beta_searchAlong, ← hp.Qx_eq, dotProduct, dotProduct, Finset.mul_sum, ← Finset.sum_add_distrib,
      ← Finset.sum_add_distrib]
    refine Finset.sum_congr rfl fun j _ => ?_
    ring
  have hrow (τ : ℝ) (i : Fin m) : (P.A.toMatrix m n *ᵥ (p.x.get + τ • d.get)) i =
      (s.searchAlong P p d).Ax.get i + τ * (s.searchAlong P p d).Ad.get i := by
    have hAd : (s.searchAlong P p d).Ad.get = P.A.toMatrix m n *ᵥ d.get := get_mulAdd_one P.A d
    have hAx : (s.searchAlong P p d).Ax.get = P.A.toMatrix m n *ᵥ p.x.get := hp.Ax_eq
    rw [Matrix.mulVec_add, Matrix.mulVec_smul, Pi.add_apply, Pi.smul_apply, smul_eq_mul, hAd, hAx]
  have hdistances (τ : ℝ) {x : Fin n → ℝ} (hx : x = p.x.get + τ • d.get) :
      ∑ i, 0.5 * s.penalty.sigma.get i *
          Metric.infDist ((P.A.toMatrix m n *ᵥ x) i + p.y.get i / s.penalty.sigma.get i)
            (LineSearch.interval (P.lowerFinite.get i) (P.upperFinite.get i) (P.bmin.get i) (P.bmax.get i)) ^ 2 =
        ∑ i, 0.5 * (s.searchAlong P p d).sigma.get i *
          Metric.infDist ((s.searchAlong P p d).Ax.get i + τ * (s.searchAlong P p d).Ad.get i +
              (s.searchAlong P p d).y.get i / (s.searchAlong P p d).sigma.get i)
            (LineSearch.interval ((s.searchAlong P p d).lowerFinite.get i) ((s.searchAlong P p d).upperFinite.get i)
              ((s.searchAlong P p d).bmin.get i) ((s.searchAlong P p d).bmax.get i)) ^ 2 := by
    refine Finset.sum_congr rfl fun i _ => ?_
    rw [hx, hrow]
    rfl
  have hsym := P.Q.transpose_symMatrix n
  have hzero : p.x.get = p.x.get + (0 : ℝ) • d.get := by rw [zero_smul, add_zero]
  have ht := hdistances t rfl
  have h0 := hdistances 0 hzero
  rw [ScaledProgram.lagrangian, ScaledProgram.lagrangian, ht, h0, LineSearch.psi, LineSearch.psi, Scalar.half_eq,
    form_add_smul hsym, hproximal, eta_searchAlong hQ hn, hbeta, dotProduct_add, dotProduct_smul, smul_eq_mul,
    dotProduct_mulVec_comm hsym p.x.get d.get]
  ring

theorem hasDerivAt_lagrangian (hpos : s.penalty.Positive) (h : P.Bounded) (hQ : P.Q.Upper) (hn : P.Q.cols = n)
    (hp : p.Carries P) (d : Vector ℝ n) :
    HasDerivAt (fun t : ℝ => P.lagrangian p s.penalty (p.x.get + t • d.get)) (s.searchAlong P p d).initialSlope.b 0 := by
  have hshift : (fun t : ℝ => P.lagrangian p s.penalty (p.x.get + t • d.get)) = fun t =>
      (s.searchAlong P p d).psi t + (P.lagrangian p s.penalty p.x.get - (s.searchAlong P p d).psi 0) := by
    funext t
    linear_combination s.lagrangian_sub hQ hn hp d t
  rw [hshift, ← LineSearch.slopeAt_zero]
  exact ((proper_searchAlong hpos h d).hasDerivAt_psi 0).add_const _

/-- A step that is not of length zero falls. One of length zero meets the sufficient decrease trivially, whether the slope
is not negative or nothing was found. -/
theorem stepLength_spec (hc : c.validate = .ok ()) {d : Vector ℝ n} {τ : ℝ} (hτ : τ = s.stepLength P p c d) :
    0 ≤ τ ∧ (0 < τ → (s.searchAlong P p d).initialSlope.b < 0) ∧
      (s.searchAlong P p d).decrease τ ≤ c.linesearchArmijo * τ * (s.searchAlong P p d).initialSlope.b := by
  have hzero : (s.searchAlong P p d).decrease 0 ≤ c.linesearchArmijo * 0 * (s.searchAlong P p d).initialSlope.b := by
    rw [LineSearch.decrease_zero, mul_zero, zero_mul]
  rw [stepLength] at hτ
  cases hsearch : (s.searchAlong P p d).search? c with
  | none =>
      rw [hsearch, Option.getD_none] at hτ
      subst hτ
      exact ⟨le_rfl, fun hlt => absurd hlt (lt_irrefl 0), hzero⟩
  | some found =>
      rw [hsearch, Option.getD_some] at hτ
      subst hτ
      rw [← LineSearch.slopeAt_zero] at hzero ⊢
      rcases LineSearch.search?_eq_some (Settings.linesearchBacktrackStep_pos hc) hsearch with
        ⟨rfl, -⟩ | ⟨hpos, hfall, hdecrease⟩
      · exact ⟨le_rfl, fun hlt => absurd hlt (lt_irrefl 0), hzero⟩
      · exact ⟨hpos.le, fun _ => hfall, hdecrease⟩

/-- A step has length `τ` along a direction in which the Lagrangian has the given slope. It does not increase the
Lagrangian, and decreases it sufficiently. -/
structure Descends (s : NewtonState ℝ n m) (P : ScaledProgram ℝ n m) (c : Settings ℝ) (p p' : Point ℝ n m)
    (d : Vector ℝ n) (slope τ : ℝ) : Prop where
  nonneg : 0 ≤ τ
  reached : p'.x.get = p.x.get + τ • d.get
  carries : p'.Carries P
  hasDerivAt : HasDerivAt (fun t : ℝ => P.lagrangian p s.penalty (p.x.get + t • d.get)) slope 0
  falls : 0 < τ → slope < 0
  decrease : P.lagrangian p s.penalty p'.x.get ≤ P.lagrangian p s.penalty p.x.get + c.linesearchArmijo * τ * slope
  not_increased : P.lagrangian p s.penalty p'.x.get ≤ P.lagrangian p s.penalty p.x.get

/-- Every step that comes to an end descends, whatever it took for the gradient and however the cost curves. -/
theorem descends_of_step (hpos : s.penalty.Positive) (h : P.Bounded) (hc : c.validate = .ok ()) (hQ : P.Q.Upper)
    (hn : P.Q.cols = n) (hp : p.Carries P) {e : Evaluation ℝ n m} {s' : NewtonState ℝ n m} {p' : Point ℝ n m} {τ : ℝ}
    {log : List (Event ℝ)} (hstep : s.step P p e c = (s', .ok (τ, p'), log)) :
    ∃ raised, s'.Descends P c p p' (s'.stepDirection p e raised)
      (s'.searchAlong P p (s'.stepDirection p e raised)).initialSlope.b τ := by
  obtain ⟨raised, log', hfactor, hlength, rfl⟩ := step_eq_ok hstep
  have hsigma := sigma_factor (P := P) (c := c) s e.active
  rw [hfactor] at hsigma
  have hpos' : s'.penalty.Positive := fun i => hsigma ▸ hpos i
  refine ⟨raised, ?_⟩
  generalize s'.stepDirection p e raised = d at *
  have hproper := proper_searchAlong (p := p) hpos' h d
  have hreached := moved_x P p τ d
  have hsub : P.lagrangian p s'.penalty (p.x.get + τ • d.get) - P.lagrangian p s'.penalty p.x.get =
      (s'.searchAlong P p d).decrease τ := (s'.lagrangian_sub hQ hn hp d τ).trans (hproper.psi_sub τ)
  obtain ⟨hnonneg, hfalls, hdecrease⟩ := stepLength_spec hc hlength
  have hpredicted : c.linesearchArmijo * τ * (s'.searchAlong P p d).initialSlope.b ≤ 0 := by
    rcases hnonneg.eq_or_lt with rfl | hτ
    · rw [mul_zero, zero_mul]
    · exact mul_nonpos_of_nonneg_of_nonpos (mul_pos (Settings.linesearchArmijo_pos hc) hτ).le (hfalls hτ).le
  exact
    { nonneg := hnonneg
      reached := hreached
      carries := hp.step τ (get_mulAdd_one P.A d) (get_symMulAdd_one hQ hn d)
      hasDerivAt := s'.hasDerivAt_lagrangian hpos' h hQ hn hp d
      falls := hfalls
      decrease := by
        rw [hreached]
        linarith
      not_increased := by
        rw [hreached]
        linarith }

end NewtonState

end Lagrangian
end AugLag
