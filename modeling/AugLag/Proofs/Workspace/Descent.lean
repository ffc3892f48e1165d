import AugLag.Proofs.Solver.AbsentBounds
import AugLag.Proofs.Solver.FullSteps
import AugLag.Proofs.Workspace.Floor
import AugLag.Proofs.Workspace.Verdict

/-!
# Descent in sessions

Whatever calls a workspace has been through, its bounds are in order and its engine can be used. So wherever a pass of a
solve takes a Newton step, the slope of the line search is the derivative along the Newton direction (`newton_slope`),
and the step does not increase the augmented Lagrangian (`newton_step_descends`).
-/

namespace AugLag

open scoped Matrix

variable {K : Type} {n m : Nat}

/-! ## What calls keep -/

namespace Workspace.Reachable

variable [ExactMachine K] {w : Workspace K}

theorem bounded [Elimination.Rule] (h : Reachable w) : ∀ p ∈ w.prepared, p.solver.program.Bounded :=
  h.keeps (D := fun S => S.program.Bounded)
    { setup := fun {problem c limit n m S} hvalid hS => by
        unfold Solver.ofProgram at hS
        obtain ⟨engine, -, rfl⟩ := map_eq_ok.mp hS
        exact ProblemInput.bounded_equilibrate hvalid limit
      warmStart := fun {n m S} x y hS => by
        rw [(S.warmStart_keeps x y).1]
        exact hS
      updateCost := fun q hS heq => by
        obtain ⟨v, -, rfl⟩ := map_eq_ok.mp heq
        exact { hS with }
      updateBounds := fun lower upper hS heq => by
        obtain ⟨bmin, bmax, hordered, rfl⟩ := Solver.exists_of_updateBounds heq
        exact ScaledProgram.bounded_setBounds hS.e_pos fun _ => inconsistentBound?_eq_none.mp hordered
      updateSettings := fun c hS heq => by
        obtain ⟨u, -, rfl⟩ := map_eq_ok.mp heq
        exact hS
      run := fun expired hS => hS }

/-- The engine is consistent, if its matrix was put in order. -/
theorem consistent [Elimination.Rule] (h : Reachable w) : ∀ p ∈ w.prepared, p.solver.Maintained ∧
    (NewtonEngine.PatternOrdered p.solver.program.Q p.solver.program.A p.solver.settings.factorizationMethod →
      p.solver.engine.Consistent p.solver.program.Q p.solver.program.A) :=
  h.keeps (D := fun S => S.Maintained ∧
      (NewtonEngine.PatternOrdered S.program.Q S.program.A S.settings.factorizationMethod →
        S.engine.Consistent S.program.Q S.program.A))
    { setup := fun {problem c limit n m S} hvalid hS => by
        have hmaintained := Solver.maintained_of_setup hvalid hS
        refine ⟨hmaintained, fun horder => ?_⟩
        unfold Solver.ofProgram at hS
        obtain ⟨engine, hengine, rfl⟩ := map_eq_ok.mp hS
        obtain ⟨engine', hengine', hconsistent⟩ := NewtonEngine.consistent_ofProblem hmaintained.data horder
        have hsame : engine = engine' := Except.ok.inj (hengine.symm.trans hengine')
        exact hsame ▸ hconsistent
      warmStart := fun {n m S} x y hS => by
        obtain ⟨hprogram, hsettings, hengine, -⟩ := S.warmStart_keeps x y
        rw [hprogram, hsettings, hengine]
        exact ⟨hS.1.warmStart x y, hS.2⟩
      updateCost := fun q hS heq => by
        refine ⟨hS.1.updateCost heq, ?_⟩
        obtain ⟨v, -, rfl⟩ := map_eq_ok.mp heq
        exact hS.2
      updateBounds := fun lower upper hS heq => by
        refine ⟨hS.1.updateBounds heq, ?_⟩
        obtain ⟨bmin, bmax, -, rfl⟩ := Solver.exists_of_updateBounds heq
        exact hS.2
      updateSettings := fun c hS heq => by
        refine ⟨hS.1.updateSettings heq, ?_⟩
        obtain ⟨u, hc, rfl⟩ := map_eq_ok.mp heq
        intro horder
        rw [Settings.method_of_validateAsUpdate (mapError_eq_ok.mp hc)] at horder
        exact (hS.2 horder).invalidate
      run := fun expired hS => ⟨hS.1.run expired, fun horder => Solver.consistent_run hS.1.settings (hS.2 horder) _⟩ }

variable {S : Solver K n m} {expired : Nat → Bool} {r : Run K n m} {s' : NewtonState K n m}

/-- In a Newton step whose system is factored, if need be with a raised weight, the slope of the line search is the
product of the direction with the gradient of the subproblem for that weight, and the negative of the curvature of its
Newton matrix along the direction. So it is negative unless the gradient vanishes. All rows that lack a bound have to
lie within the limit. -/
theorem newton_slope [Elimination.Rule] (h : Reachable w) (hw : w.prepared = some ⟨n, m, S⟩)
    (horder : NewtonEngine.PatternOrdered S.program.Q S.program.A S.settings.factorizationMethod)
    (hr : S.start.Begins S.program S.settings expired r)
    (hinside : ∀ i, S.program.lowerFinite.get i = false ∨ S.program.upperFinite.get i = false →
      |r.shifted i| ≤ S.program.limit)
    {raised : Bool} {log : List (Event K)}
    (hfactor : (r.measure S.program).newton.factor S.program (r.measure S.program).evaluation.active S.settings =
      (s', .ok raised, log)) {d : Vector K n} {g : Fin n → K}
    (hd : d = s'.stepDirection r.point (r.measure S.program).evaluation raised)
    (hg : g = (Evaluation.ofPoint S.program r.point s'.penalty.sigma s'.penalty.rho).gradient.get) :
    (∃ τ log', (r.measure S.program).newton.step S.program r.point (r.measure S.program).evaluation S.settings =
        (s', .ok (τ, NewtonState.moved S.program r.point τ d), log')) ∧
      (s'.searchAlong S.program r.point d).initialSlope.b = d.get ⬝ᵥ g ∧
      (s'.searchAlong S.program r.point d).initialSlope.b =
        -(d.get ⬝ᵥ hessian S.program.Q S.program.A n (r.measure S.program).evaluation.active s'.penalty.sigma
          s'.penalty.rho *ᵥ d.get) ∧
      (g ≠ 0 → (s'.searchAlong S.program r.point d).initialSlope.b < 0) := by
  obtain ⟨hmaintained, hconsistent⟩ := h.consistent _ hw
  have hready : r.newton.Ready S.program :=
    hr.ready hmaintained.settings (Solver.ready_start hmaintained.settings (hconsistent horder))
  have hbounded : S.program.Bounded := h.bounded _ hw
  refine ⟨⟨_, NewtonState.step_of_factor hfactor r.point hd⟩, ?_⟩
  exact NewtonState.Ready.slope_of_factor hready hbounded (fun i => hbounded.spares (hinside i)) hfactor hd hg

end Workspace.Reachable

namespace Sample

/-- A cost that falls along `(3, -2)`, over one row without an upper bound. -/
def ridge : ProblemInput ℚ :=
  { Q := some (.dense 2 2 #[-9, 6, 6, -4])
    q := some #[1, 1]
    A := some (.dense 1 2 #[1, 1])
    bmin := some #[-1]
    bmax := some #[20] }

def ridgeSettings : Settings ℚ := { settings with nonconvex := true, scalingEnable := false }

/-- The first step of a solver starts from a gradient, and its system is factored with a raised weight only. -/
def startsRaised (S : Solver ℚ 2 1) : Bool :=
  match (S.start.measure S.program).newton.factor S.program (S.start.measure S.program).evaluation.active
      S.settings with
  | (s', .ok true, _) =>
    decide (∃ j, (Evaluation.ofPoint S.program S.start.point s'.penalty.sigma s'.penalty.rho).gradient.get j ≠ 0)
  | _ => false

theorem exists_of_startsRaised {S : Solver ℚ 2 1} (h : startsRaised S = true) :
    ∃ s' log, (S.start.measure S.program).newton.factor S.program (S.start.measure S.program).evaluation.active
        S.settings = (s', .ok true, log) ∧
      (Evaluation.ofPoint S.program S.start.point s'.penalty.sigma s'.penalty.rho).gradient.get ≠ 0 := by
  unfold startsRaised at h
  split at h
  · next s' log heq =>
      obtain ⟨j, hj⟩ := of_decide_eq_true h
      exact ⟨s', log, heq, fun hzero => hj (congrFun hzero j)⟩
  · cases h

/-- What is needed for a workspace to fall at its first step with a raised weight. -/
def fallsRaised (w : Workspace ℚ) : Bool :=
  match w.prepared with
  | some ⟨2, 1, S⟩ =>
    decide (NewtonEngine.PatternOrdered S.program.Q S.program.A S.settings.factorizationMethod) &&
      S.settings.nonconvex && startsRaised S &&
      decide (∀ i, S.program.lowerFinite.get i = false ∨ S.program.upperFinite.get i = false →
        |S.start.shifted i| ≤ S.program.limit)
  | _ => false

theorem fallsRaised_ridge : ((Workspace.setup ridge ridgeSettings 10).1.toOption.any fallsRaised) = true := by
  decide +kernel

end Sample

/-- In the sample the weight is raised before the search falls. -/
theorem Workspace.Reachable.newton_slope_ridge :
    ∃ (w : Workspace ℚ) (S : Solver ℚ 2 1) (s' : NewtonState ℚ 2 1) (log : List (Event ℚ)),
      (Workspace.setup Sample.ridge Sample.ridgeSettings 10).1 = .ok w ∧ w.prepared = some ⟨2, 1, S⟩ ∧
        (S.start.measure S.program).newton.factor S.program (S.start.measure S.program).evaluation.active S.settings =
          (s', .ok true, log) ∧
        (s'.searchAlong S.program S.start.point
          (s'.stepDirection S.start.point (S.start.measure S.program).evaluation true)).initialSlope.b < 0 := by
  have hmeets := Sample.fallsRaised_ridge
  cases hsetup : (Workspace.setup Sample.ridge Sample.ridgeSettings 10).1 with
  | error e =>
      rw [hsetup] at hmeets
      cases hmeets
  | ok w =>
      rw [hsetup] at hmeets
      have hw : Sample.fallsRaised w = true := hmeets
      unfold Sample.fallsRaised at hw
      split at hw
      · next S hprepared =>
          simp only [Bool.and_eq_true, decide_eq_true_eq] at hw
          obtain ⟨⟨⟨horder, hnonconvex⟩, hraised⟩, hinside⟩ := hw
          obtain ⟨s', log, hfactor, hgradient⟩ := Sample.exists_of_startsRaised hraised
          have hbegins : S.start.Begins S.program S.settings (fun _ => false) S.start := .unfactored hnonconvex
          obtain ⟨-, -, -, hfalls⟩ :=
            newton_slope (.setup hsetup) hprepared horder hbegins hinside hfactor rfl rfl
          exact ⟨w, S, s', log, rfl, hprepared, hfactor, hfalls hgradient⟩
      · cases hw

/-! ## Descent -/

namespace Workspace.Reachable

variable {w : Workspace ℝ} {S : Solver ℝ n m} {expired : Nat → Bool} {r : Run ℝ n m} {s' : NewtonState ℝ n m}
  {p' : Point ℝ n m}

/-- A Newton step that comes to an end does not increase the augmented Lagrangian for the weight that it leaves behind,
and decreases it sufficiently, also where the cost curves down along the direction. The products that it carries along
stay up to date. -/
theorem newton_step_descends [Elimination.Rule] (h : Reachable w) (hw : w.prepared = some ⟨n, m, S⟩)
    (hr : S.start.Begins S.program S.settings expired r) {τ : ℝ} {log : List (Event ℝ)}
    (hstep : (r.measure S.program).newton.step S.program r.point (r.measure S.program).evaluation S.settings =
      (s', .ok (τ, p'), log)) :
    ∃ raised, s'.Descends S.program S.settings r.point p'
      (s'.stepDirection r.point (r.measure S.program).evaluation raised)
      (s'.searchAlong S.program r.point
        (s'.stepDirection r.point (r.measure S.program).evaluation raised)).initialSlope.b τ := by
  obtain ⟨hdata, hc, -⟩ := h.maintained _ hw
  have hstart : S.start.Coherent S.program :=
    ⟨Point.carries_start hdata.upper hdata.cost_cols _ _, Penalty.positive_initial hc _⟩
  obtain ⟨hcoherent, -⟩ := hr.coherent hdata.upper hdata.cost_cols hc hstart rfl
  exact NewtonState.descends_of_step hcoherent.measure.positive (h.bounded _ hw) hc hdata.upper hdata.cost_cols
    hcoherent.carries hstep

end Workspace.Reachable

/-! ## A step that leads down -/

namespace Evaluation

variable [ExactScalar K] {P : ScaledProgram K n m} {sigma : Vector K m}

theorem shifted_start_zero (i : Fin m) : (shifted (Point.start P (Vec.zeros n) (Vec.zeros m)) sigma).get i = 0 := by
  have hzero : (Vec.zeros n : Vector K n).get = 0 := funext Vec.get_zeros
  have hAx : (Point.start P (Vec.zeros n) (Vec.zeros m)).Ax.get i = 0 := by
    refine (congrFun (get_mulAdd_one P.A (Vec.zeros n)) i).trans ?_
    rw [hzero, Matrix.mulVec_zero, Pi.zero_apply]
  have hy : (Point.start P (Vec.zeros n) (Vec.zeros m)).y.get i = 0 := Vec.get_zeros i
  rw [shifted, Vec.get_ofFn, hAx, hy, zero_div, add_zero]

/-- From a start at zero, inside the bounds, the gradient is the linear cost. -/
theorem gradient_start_zero (hQ : P.Q.Upper) (hn : P.Q.cols = n) (hsigma : ∀ i, 0 < sigma.get i)
    (hinside : ∀ i, P.bmin.get i ≤ 0 ∧ 0 ≤ P.bmax.get i) (rho : K) :
    (ofPoint P (Point.start P (Vec.zeros n) (Vec.zeros m)) sigma rho).gradient.get = P.q.get := by
  have hzero : (Vec.zeros n : Vector K n).get = 0 := funext Vec.get_zeros
  generalize hp : Point.start P (Vec.zeros n) (Vec.zeros m) = p
  have hmultiplier : (ofPoint P p sigma rho).multiplier.get = 0 := by
    funext i
    rw [multiplier_eq hsigma, get_z, ← hp, shifted_start_zero, Scalar.clamp_eq_self (hinside i).1 (hinside i).2,
      sub_zero, mul_zero, Pi.zero_apply]
  have hQx (j : Fin n) : p.Qx.get j = 0 := by
    rw [← hp]
    refine (congrFun (get_symMulAdd_one hQ hn (Vec.zeros n)) j).trans ?_
    rw [hzero, Matrix.mulVec_zero, Pi.zero_apply]
  have hcenter : p.center = p.x := by rw [← hp, Point.start]
  funext j
  have hgradient : (ofPoint P p sigma rho).gradient.get j =
      (ofPoint P p sigma rho).stationarity.get j + rho * (p.x.get j - p.center.get j) := Vec.get_ofFn _ j
  rw [hgradient, get_stationarity, get_force, hmultiplier, hQx, hcenter, Matrix.mulVec_zero, Pi.zero_apply, sub_self,
    mul_zero, zero_add, add_zero, add_zero]

end Evaluation

namespace Sample

/-! The bowl `½ xᵀx + x₀ + x₁` over a square. -/

theorem posSemidef_bowl : PosSemidef ((curvedCost 1 0 1).symMatrix 2) := by
  intro x
  rw [form_curvedCost]
  nlinarith [sq_nonneg (x 0), sq_nonneg (x 1)]

/-- The square lies around zero, and from there the bowl falls along both axes. -/
theorem bowl_spec (i : Fin 2) : (curvedProgram 1 0 1 10).bmin.get i = -1 ∧ (curvedProgram 1 0 1 10).bmax.get i = 1 ∧
    (curvedProgram 1 0 1 10).q.get i = 1 := by
  have hmin : (curvedProgram 1 0 1 10).bmin.get i = Scalar.clamp (-1) (-10) 10 := by
    refine (Vec.get_clamp _ _ _ i).trans ?_
    fin_cases i <;> rfl
  have hmax : (curvedProgram 1 0 1 10).bmax.get i = Scalar.clamp 1 (-10) 10 := by
    refine (Vec.get_clamp _ _ _ i).trans ?_
    fin_cases i <;> rfl
  have hq : (curvedProgram 1 0 1 10).q.get i = 1 := by
    fin_cases i <;> rfl
  rw [Scalar.clamp_eq_self (by norm_num) (by norm_num)] at hmin hmax
  exact ⟨hmin, hmax, hq⟩

theorem rows_bowl (d : Fin 2 → ℝ) : (curvedProgram 1 0 1 10).A.toMatrix 2 2 *ᵥ d = d := by
  have hA : (curvedProgram 1 0 1 10).A = identityConstraints := rfl
  have hfirst : identityConstraints.column 0 = [(0, 1)] := rfl
  have hsecond : identityConstraints.column 1 = [(1, 1)] := rfl
  have hone : identityConstraints.toMatrix 2 2 = 1 := by
    ext i j
    fin_cases i <;> fin_cases j <;>
      simp [SparseMatrix.toMatrix, SparseMatrix.entry, SparseMatrix.sumAt, hfirst, hsecond]
  rw [hA, hone, Matrix.one_mulVec]

/-- The system of the bowl, without active rows, is solved along the diagonal. -/
theorem proximal_bowl {rho : ℝ} (hrho : 0 < rho) {d g : Fin 2 → ℝ} (hg : ∀ j, g j = 1)
    (hsolves : proximal (curvedCost 1 0 1) 2 rho *ᵥ d = -g) (j : Fin 2) : -1 < d j ∧ d j < 0 := by
  have hmatrix : proximal (curvedCost 1 0 1) 2 rho = (1 + rho) • (1 : Matrix (Fin 2) (Fin 2) ℝ) := by
    rw [proximal, symMatrix_curvedCost, ← Matrix.one_fin_two, add_smul, one_smul]
  have hrow := congrFun hsolves j
  rw [hmatrix, Matrix.smul_mulVec, Matrix.one_mulVec, Pi.smul_apply, smul_eq_mul, Pi.neg_apply, hg] at hrow
  constructor <;> nlinarith

/-- The first step on the bowl is a full one. -/
theorem exists_step_bowl :
    ∃ (w : Workspace ℝ) (S : Solver ℝ 2 2) (s' : NewtonState ℝ 2 2) (p' : Point ℝ 2 2) (log : List (Event ℝ)),
      (Workspace.setup (curved 1 0 1) curvedSettings 10).1 = .ok w ∧ w.prepared = some ⟨2, 2, S⟩ ∧
        S.settings.nonconvex = true ∧
        (S.start.measure S.program).newton.step S.program S.start.point (S.start.measure S.program).evaluation S.settings =
          (s', .ok (1, p'), log) := by
  obtain ⟨w, S, hsetup, hw, hsettings, hcost, hprogram, hpoint⟩ := exists_setup_curved 1 0 1
  have hreachable : Workspace.Reachable w := .setup hsetup
  obtain ⟨hmaintained, hconsistent⟩ := hreachable.consistent _ hw
  have hdata := hmaintained.data
  have horder : NewtonEngine.PatternOrdered S.program.Q S.program.A S.settings.factorizationMethod := by
    rw [hcost, hprogram, hsettings]
    exact ordered_curved 1 0 1
  have harmijo : S.settings.linesearchArmijo ≤ 1 / 2 := by
    rw [hsettings]
    norm_num [curvedSettings, Settings.default, Scalar.ofScientific_eq]
  have htrials : S.settings.linesearchMaxBacktrack ≠ 0 := by
    rw [hsettings]
    decide
  have hsafe : (S.start.measure S.program).newton.Safe S.program :=
    Solver.safe_start hmaintained.settings (hconsistent horder)
  have hconvex : PosSemidef (S.program.Q.symMatrix 2) := hcost ▸ posSemidef_bowl
  have hbounds (i : Fin 2) : S.program.bmin.get i = -1 ∧ S.program.bmax.get i = 1 ∧ S.program.q.get i = 1 :=
    hprogram ▸ bowl_spec i
  have hinside (i : Fin 2) : S.program.bmin.get i ≤ 0 ∧ 0 ≤ S.program.bmax.get i := by
    rw [(hbounds i).1, (hbounds i).2.1]
    norm_num
  have hshifted {sigma : Vector ℝ 2} (i : Fin 2) : (Evaluation.shifted S.start.point sigma).get i = 0 := by
    rw [hpoint]
    exact Evaluation.shifted_start_zero i
  have hgradient (j : Fin 2) : (S.start.measure S.program).evaluation.gradient.get j = 1 := by
    refine Eq.trans ?_ (hbounds j).2.2
    refine congrFun (Eq.trans ?_ (Evaluation.gradient_start_zero hdata.upper hdata.cost_cols hsafe.positive hinside
      S.start.newton.penalty.rho)) j
    rw [hprogram, ← hpoint]
    rfl
  obtain ⟨s', d, τ, log, hstep, hsolves, -, hmoves⟩ := hsafe.step_of_inactive (p := S.start.point) hconvex hdata.upper
    hdata.cost_cols (hreachable.bounded _ hw) (fun i => hshifted i ▸ hinside i) harmijo rfl
  -- the direction stays within the square, so no bound is met before the full step
  have hidle : ((S.start.measure S.program).newton.searchAlong S.program S.start.point d).Idle := by
    refine NewtonState.idle_searchAlong exactRoots_real hsafe.positive (fun i => hshifted i ▸ hinside i) fun i => ?_
    have hrows : (S.program.A.toMatrix 2 2 *ᵥ d.get) i = d.get i := by rw [hprogram, rows_bowl]
    obtain ⟨hlow, hhigh⟩ := proximal_bowl hsafe.proximal.rho_pos hgradient (hcost ▸ hsolves) i
    rw [hshifted, hrows, (hbounds i).1, (hbounds i).2.1]
    constructor <;> linarith
  have hτ : τ = 1 := by
    refine (hmoves (fun hzero => ?_) hidle).trans (if_neg htrials)
    exact zero_ne_one ((congrFun hzero 0).symm.trans (hgradient 0))
  subst hτ
  exact ⟨w, S, s', _, log, hsetup, hw, by rw [hsettings]; rfl, hstep⟩

end Sample

/-- The first step on the bowl leads down. -/
theorem Workspace.Reachable.newton_step_descends_bowl :
    ∃ (w : Workspace ℝ) (S : Solver ℝ 2 2) (s' : NewtonState ℝ 2 2) (τ : ℝ) (p' : Point ℝ 2 2) (log : List (Event ℝ)),
      (Workspace.setup (Sample.curved 1 0 1) Sample.curvedSettings 10).1 = .ok w ∧ w.prepared = some ⟨2, 2, S⟩ ∧
        (S.start.measure S.program).newton.step S.program S.start.point (S.start.measure S.program).evaluation S.settings =
          (s', .ok (τ, p'), log) ∧
        0 < τ ∧ p'.Carries S.program ∧
          S.program.lagrangian S.start.point s'.penalty p'.x.get <
            S.program.lagrangian S.start.point s'.penalty S.start.point.x.get := by
  obtain ⟨w, S, s', p', log, hsetup, hw, hnonconvex, hstep⟩ := Sample.exists_step_bowl
  have hreachable : Reachable w := .setup hsetup
  have hbegins : S.start.Begins S.program S.settings (fun _ => false) S.start := .unfactored hnonconvex
  obtain ⟨raised, hdescends⟩ := newton_step_descends hreachable hw hbegins hstep
  obtain ⟨-, hc, -⟩ := hreachable.maintained _ hw
  have hpredicted := mul_neg_of_pos_of_neg (mul_pos (Settings.linesearchArmijo_pos hc) one_pos)
    (hdescends.falls one_pos)
  exact ⟨w, S, s', 1, p', log, hsetup, hw, hstep, one_pos, hdescends.carries, by linarith [hdescends.decrease]⟩

end AugLag
