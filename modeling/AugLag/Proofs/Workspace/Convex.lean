import AugLag.Proofs.Solver.Convex
import AugLag.Proofs.Solver.Simulation
import AugLag.Proofs.Workspace.Stored

/-!
# Sessions with convex problems

A convex problem is never reported as nonconvex, and its results do not depend on how its Newton systems are factored.
Both rest on the order of elimination being a permutation of the columns.
-/

namespace AugLag

variable {K : Type} {n m : Nat}

/-! ## Engines of sessions -/

section Engines

variable [ExactMachine K] {limit : K} {w : Workspace K} {P : PosedProblem K n m}

theorem Solver.settings_of_setup [Elimination.Rule] {L : QuadraticProgram K n m} {c : Settings K} {S : Solver K n m}
    (h : Solver.ofProgram L c = .ok S) : S.settings = c := by
  unfold Solver.ofProgram at h
  obtain ⟨engine, -, rfl⟩ := map_eq_ok.mp h
  rfl

theorem Solver.consistent_of_setup [Elimination.Rule] {problem : ProblemInput K} {c : Settings K} {S : Solver K n m}
    (hlimit : 0 < limit) (hvalid : problem.validate c = .ok (n, m))
    (h : Solver.ofProgram (problem.normalize n m limit).1 c = .ok S)
    (horder : NewtonEngine.PatternOrdered S.program.Q S.program.A c.factorizationMethod) :
    S.engine.Consistent S.program.Q S.program.A := by
  have hholds := Solver.holds_of_setup hlimit hvalid h
  unfold Solver.ofProgram at h
  obtain ⟨engine, hengine, rfl⟩ := map_eq_ok.mp h
  obtain ⟨engine', hengine', hconsistent⟩ :=
    NewtonEngine.consistent_ofProblem (hholds.stores.formed hholds.formed) horder
  have hsame : engine = engine' := Except.ok.inj (hengine.symm.trans hengine')
  exact hsame ▸ hconsistent

/-- The engine of a workspace is consistent after any session. -/
theorem Session.exists_consistent [Elimination.Rule] (h : Session limit w P) (hlimit : 0 < limit) :
    ∃ S : Solver K n m, w.prepared = some ⟨n, m, S⟩ ∧
      (NewtonEngine.PatternOrdered S.program.Q S.program.A S.settings.factorizationMethod →
        S.engine.Consistent S.program.Q S.program.A) := by
  induction h with
  | @setup problem c w hsetup hdims =>
      obtain ⟨S, hw, hvalid, hS⟩ := Workspace.setup_eq hsetup hdims
      refine ⟨S, hw, fun horder => ?_⟩
      rw [Solver.settings_of_setup hS] at horder
      exact Solver.consistent_of_setup hlimit hvalid hS horder
  | @warmStart w P x y _ _ ih =>
      obtain ⟨S, hw, hS⟩ := ih
      refine ⟨(S.warmStart x y).1, (Workspace.warmStart_eq hw x y).1, ?_⟩
      unfold Solver.warmStart
      simp only
      split
      · exact hS
      · exact hS
      · exact hS
  | updateCost _ hok ih =>
      obtain ⟨S, hw, hS⟩ := ih
      obtain ⟨S', hS', heq⟩ := Workspace.change_eq hw hok
      refine ⟨S', by rw [Workspace.updateCost, heq], ?_⟩
      obtain ⟨v, -, rfl⟩ := map_eq_ok.mp hS'
      exact hS
  | updateBounds _ hok ih =>
      obtain ⟨S, hw, hS⟩ := ih
      obtain ⟨S', hS', heq⟩ := Workspace.change_eq hw hok
      refine ⟨S', by rw [Workspace.updateBounds, heq], ?_⟩
      obtain ⟨lower, upper, -, rfl⟩ := Solver.exists_of_updateBounds hS'
      exact hS
  | updateSettings _ hok ih =>
      obtain ⟨S, hw, hS⟩ := ih
      obtain ⟨S', hS', heq⟩ := Workspace.change_eq hw hok
      refine ⟨S', by rw [Workspace.updateSettings, heq], ?_⟩
      obtain ⟨u, hc, rfl⟩ := map_eq_ok.mp hS'
      intro horder
      rw [Settings.method_of_validateAsUpdate (mapError_eq_ok.mp hc)] at horder
      exact (hS horder).invalidate
  | solve hsession hsolve ih =>
      obtain ⟨S, hw, hS⟩ := ih
      refine ⟨_, (Workspace.solve_eq hw hsolve).1, fun horder => ?_⟩
      exact Solver.consistent_run (hsession.serves hlimit hw).settings (hS horder) _

theorem Session.consistent [Elimination.Rule] (h : Session limit w P) (hlimit : 0 < limit) {S : Solver K n m}
    (hw : w.prepared = some ⟨n, m, S⟩)
    (horder : NewtonEngine.PatternOrdered S.program.Q S.program.A S.settings.factorizationMethod) :
    S.engine.Consistent S.program.Q S.program.A := by
  obtain ⟨S', hw', hS'⟩ := h.exists_consistent hlimit
  rw [hw] at hw'
  cases hw'
  exact hS' horder

end Engines

/-! ## Exchanged factorizations -/

section Exchange

variable [ExactScalar K] {P : ScaledProgram K n m} {c : Settings K} {policy : Policy K}

/-- The penalties that a solve goes through. -/
def Penalty.Proper (p : Penalty K m) : Prop := p.Positive ∧ p.Proximal

/-- In a convex problem any two consistent engines answer every request, with the same solutions. -/
theorem interchangeable_of_convex (hQ : PosSemidef (P.Q.symMatrix n)) (hc : c.validate = .ok ()) :
    Interchangeable P c policy Penalty.Proper
      fun e e' => e.Consistent P.Q P.A ∧ e'.Consistent P.Q P.A := by
  have hsafe {e : NewtonEngine K n m} {penalty : Penalty K m} (he : e.Consistent P.Q P.A) (hp : penalty.Proper) :
      NewtonState.Safe { engine := e, penalty } P :=
    { consistent := he, positive := hp.1, proximal := hp.2 }
  have hok {e : NewtonEngine K n m} {penalty : Penalty K m} (he : e.Consistent P.Q P.A) (hp : penalty.Proper)
      (active : Vector Bool m) (c : Settings K) :
      (e.update P.Q P.A active penalty.sigma penalty.rho c).2.1 = .ok () := (hsafe he hp).update_eq_ok hQ active c
  refine
    { update := fun e e' penalty active ⟨he, he'⟩ hp =>
        ⟨((hsafe he hp).update active c).consistent, ((hsafe he' hp).update active (c.withPolicy policy)).consistent⟩
      outcome := fun e e' penalty active ⟨he, he'⟩ hp => (hok he' hp active _).trans (hok he hp active _).symm
      solve := fun e e' penalty active ⟨he, he'⟩ hp _ rhs => ?_
      regularize := fun penalty hp => ⟨hp.1, hp.2.floor_pos, ?_⟩
      commit := fun penalty hp => ⟨hp.1, ?_, ?_⟩
      grow := fun penalty violation previous hp => ⟨hp.1.grow hc violation previous, ?_⟩
      lowerProximal := fun penalty solved hp =>
        ⟨hp.1.lowerProximal solved c, (hp.2.lowerProximal hc solved).1⟩ }
  · let request : NewtonRequest K m := { active, sigma := penalty.sigma, rho := penalty.rho }
    have hsigma : request.PositivePenalties := hp.1
    obtain ⟨hcons, hserves, -⟩ := he.answer_spec hsigma c
    obtain ⟨hcons', hserves', -⟩ := he'.answer_spec hsigma (c.withPolicy policy)
    have hsolves := ((hserves (hok he hp active c)).solves hcons hsigma).2 rhs
    have hsolves' := ((hserves' (hok he' hp active _)).solves hcons' hsigma).2 rhs
    refine Vec.ext_get fun j => ?_
    exact congrFun ((hsolves _).mp ((hsolves' _).mpr rfl)) j
  · simp only [Penalty.regularize, Scalar.max_eq_max]
    have hgrows : penalty.rho ≤ penalty.rho * c.proximalRegularizationFactor :=
      le_mul_of_one_le_right hp.2.rho_pos.le (Settings.proximalRegularizationFactor_gt hc).le
    exact (hp.2.floor_le.trans hgrows).trans (le_max_left _ _)
  · simp only [Penalty.commit, Scalar.max_eq_max]
    exact hp.2.floor_pos.trans_le (le_max_left _ _)
  · simp only [Penalty.commit, Scalar.max_eq_max]
    exact max_le hp.2.floor_le le_rfl
  · obtain ⟨hrho, hfloor⟩ := Penalty.rho_grow (c := c) penalty violation previous
    refine ⟨?_, ?_⟩
    · rw [hfloor]
      exact hp.2.floor_pos
    · rw [hfloor, hrho]
      exact hp.2.floor_le

/-- Two solvers of one convex program report the same results from one starting point, whatever their engines are. -/
theorem Solver.results_eq_of_convex {S S' : Solver K n m} (hQ : PosSemidef (S.program.Q.symMatrix n))
    (hc : S.settings.validate = .ok ()) (hprogram : S'.program = S.program)
    (hsettings : S'.settings = S.settings.withPolicy policy) (hx : S'.xStart = S.xStart) (hy : S'.yStart = S.yStart)
    (hlambda : S'.lambdaMin = S.lambdaMin) (hengine : S.engine.Consistent S.program.Q S.program.A)
    (hengine' : S'.engine.Consistent S.program.Q S.program.A) (expired : Nat → Bool) :
    (S'.run expired).2.results S'.program = (S.run expired).2.results S.program :=
  Solver.results_eq_of_interchangeable hprogram hsettings hx hy hlambda hc (interchangeable_of_convex hQ hc)
    ⟨Penalty.positive_initial hc S.rhoFloor, Penalty.proximal_initial (Solver.rhoFloor_pos hc)⟩
    ⟨hengine.invalidate, hengine'.invalidate⟩ expired

end Exchange

/-! ## A sample -/

namespace Sample

theorem posSemidef_lopsided : PosSemidef (lopsided.posed 2 2).Q := by
  have hQ : (lopsided.posed 2 2).Q = !![4, 1; 1, 9] := by
    decide
  intro x
  simp only [hQ, dotProduct, Matrix.mulVec, Fin.sum_univ_two, Matrix.of_apply, Matrix.cons_val_zero,
    Matrix.cons_val_one]
  nlinarith [sq_nonneg (x 0 + x 1), sq_nonneg (x 0), sq_nonneg (x 1)]

theorem pattern_lopsided :
    ReducedSystem.pattern (lopsided.normalize 2 2 10).1.Q (lopsided.normalize 2 2 10).1.A
        (lopsided.normalize 2 2 10).1.A.rowIndex (lopsided.normalize 2 2 10).1.A.columnOfSlot =
      { rows := 2, cols := 2, colPtr := #[0, 1, 3], rowIdx := #[0, 0, 1], values := #[0, 0, 0] } := by
  cbv

theorem ordered_lopsided {method : Method} (hmethod : method = .kkt ∨ method = .schur) :
    NewtonEngine.PatternOrdered (lopsided.normalize 2 2 10).1.Q (lopsided.normalize 2 2 10).1.A method := by
  rcases hmethod with rfl | rfl
  · decide +kernel
  · unfold NewtonEngine.PatternOrdered Ordered
    rw [pattern_lopsided]
    decide +kernel

/-- Both forms of the Newton system of the sample are put in order, however its data are scaled. -/
theorem patternOrdered_lopsided {program : ScaledProgram ℚ 2 2} (h : program.Stores (lopsided.normalize 2 2 10).1)
    {method : Method} (hmethod : method = .kkt ∨ method = .schur) :
    NewtonEngine.PatternOrdered program.Q program.A method :=
  .of_samePattern h.cost_pattern h.constraints_pattern (ordered_lopsided hmethod)

/-- The reduced form without modifications of its factors. -/
def reducedPolicy : Policy ℚ := { method := .schur, maxRankUpdate := 0, maxRankUpdateFraction := 0, resetNewtonIter := 1 }

theorem exists_solver_lopsided :
    ∃ S : Solver ℚ 2 2, (opened lopsided).prepared = some ⟨2, 2, S⟩ ∧ S.settings = settings ∧
      S.program.Stores (lopsided.normalize 2 2 10).1 := by
  obtain ⟨S, hw, hvalid, hS⟩ := Workspace.setup_eq setup_lopsided dims_lopsided
  exact ⟨S, hw, Solver.settings_of_setup hS, (Solver.holds_of_setup (by norm_num) hvalid hS).stores⟩

end Sample

/-! ## What convexity guarantees -/

variable [ExactMachine K] {limit : K}

namespace Session

variable {w : Workspace K} {P : PosedProblem K n m} {S : Solver K n m} {clock : Nat → Float}

/-- In a solve of a convex problem, after any session, no update of the engine is refused. Every factorization succeeds
at once and leaves the penalties alone, no pass raises the proximal weight, and the status is not that of a nonconvex
problem. -/
theorem convex_never_refused [Elimination.Rule] (h : Session limit w P) (hlimit : 0 < limit)
    (hw : w.prepared = some ⟨n, m, S⟩) (hQ : PosSemidef P.Q)
    (horder : NewtonEngine.PatternOrdered S.program.Q S.program.A S.settings.factorizationMethod)
    (clock : Nat → Float) :
    (∀ s active, S.start.Updates S.program S.settings (fun updates => S.settings.timeLimit < clock updates) s active →
      (s.update S.program active S.settings).2.1 = .ok ()) ∧
    ((S.start.evaluate S.program).newton.factorInitial S.program (S.start.evaluate S.program).evaluation.active
      S.settings).1.penalty = S.start.newton.penalty ∧
    (∀ r, S.start.Begins S.program S.settings (fun updates => S.settings.timeLimit < clock updates) r →
      ((r.measure S.program).newton.factor S.program (r.measure S.program).evaluation.active S.settings).2.1 =
          .ok false ∧
        ((r.measure S.program).newton.factor S.program (r.measure S.program).evaluation.active S.settings).1.penalty =
          r.newton.penalty ∧
        (r.pass S.program S.settings fun updates => S.settings.timeLimit < clock updates).1.newton.penalty.rho ≤
          r.newton.penalty.rho) ∧
    ∃ solution, w.solve clock = .ok solution ∧ solution.results.info.status ≠ .nonConvex := by
  have hS := h.serves hlimit hw
  have hscaled := hS.scaling.posSemidef hQ
  have hstart := Solver.safe_start hS.settings (h.consistent hlimit hw horder)
  refine ⟨fun s active hupdate => hupdate.eq_ok hscaled hS.settings hstart, ?_, fun r hbegins => ?_, ?_⟩
  · have hevaluate : (S.start.evaluate S.program).newton.Safe S.program := hstart
    rw [hevaluate.factorInitial_eq hscaled]
    rfl
  · have hsafe := hbegins.safe hscaled hS.settings hstart
    have hmeasure : (r.measure S.program).newton.Safe S.program := hsafe
    refine ⟨?_, ?_, (Run.safe_pass hscaled hS.settings hsafe _).2.1⟩
    · rw [hmeasure.factor_eq hscaled]
    · rw [hmeasure.factor_eq hscaled]
      rfl
  · obtain ⟨solution, hsolve⟩ := Workspace.exists_solveInto hw clock (Results.blank 0 0)
    refine ⟨solution, hsolve, ?_⟩
    rw [(Workspace.solve_eq hw hsolve).2]
    exact Run.reduced_ne_nonConvex (Run.safe_complete hscaled hS.settings hstart _)

/-- In the sample the very first update is answered, and the solve does not end as nonconvex. -/
theorem convex_never_refused_lopsided :
    ∃ S : Solver ℚ 2 2, (Sample.opened Sample.lopsided).prepared = some ⟨2, 2, S⟩ ∧
      ((S.start.evaluate S.program).newton.update S.program (S.start.evaluate S.program).evaluation.active
        S.settings).2.1 = .ok () ∧
        ∃ solution, (Sample.opened Sample.lopsided).solve (fun _ => 0) = .ok solution ∧
          solution.results.info.status ≠ .nonConvex := by
  obtain ⟨S, hw, hsettings, hstores⟩ := Sample.exists_solver_lopsided
  have hsession : Session 10 (Sample.opened Sample.lopsided) (Sample.lopsided.posed 2 2) :=
    .setup Sample.setup_lopsided Sample.dims_lopsided
  have horder := Sample.patternOrdered_lopsided hstores (.inl rfl)
  obtain ⟨hupdates, -, -, hstatus⟩ := convex_never_refused hsession (by norm_num) hw Sample.posSemidef_lopsided
    (hsettings ▸ horder) fun _ => 0
  refine ⟨S, hw, hupdates _ _ (.initial ?_), hstatus⟩
  rw [hsettings]
  rfl

end Session

theorem Solver.ofProgram_withPolicy [Elimination.Rule] {L : QuadraticProgram K n m} {c : Settings K} {policy : Policy K}
    {S : Solver K n m} {engine : NewtonEngine K n m} (h : Solver.ofProgram L c = .ok S)
    (hengine : NewtonEngine.ofProblem S.program.Q S.program.A n m policy.method = .ok engine) :
    Solver.ofProgram L (c.withPolicy policy) = .ok { S with settings := c.withPolicy policy, engine } := by
  unfold Solver.ofProgram at h
  obtain ⟨engine₀, -, rfl⟩ := map_eq_ok.mp h
  have hscaled : (ScaledProgram.ofProgram L).equilibrate (c.withPolicy policy) =
      (ScaledProgram.ofProgram L).equilibrate c := rfl
  unfold Solver.ofProgram
  rw [hscaled]
  exact map_eq_ok.mpr ⟨engine, hengine, rfl⟩

namespace Workspace

variable {problem : ProblemInput K} {c : Settings K} {policy : Policy K} {w : Workspace K} {S : Solver K n m}

/-- The setup under another policy prepares the same program. -/
theorem exists_setup_withPolicy [Elimination.Rule] (hlimit : 0 < limit)
    (hsetup : (Workspace.setup problem c limit).1 = .ok w) (hw : w.prepared = some ⟨n, m, S⟩)
    (hpolicy : (c.withPolicy policy).validate = .ok ())
    (horder : NewtonEngine.PatternOrdered S.program.Q S.program.A policy.method) :
    ∃ (w' : Workspace K) (S' : Solver K n m), (Workspace.setup problem (c.withPolicy policy) limit).1 = .ok w' ∧
      w'.prepared = some ⟨n, m, S'⟩ ∧ S'.program = S.program ∧ S'.settings = c.withPolicy policy ∧
        S'.xStart = S.xStart ∧ S'.yStart = S.yStart ∧ S'.lambdaMin = S.lambdaMin ∧
          S'.engine.Consistent S.program.Q S.program.A := by
  obtain ⟨hvalid, hS⟩ := setup_spec hsetup hw
  have hholds := Solver.holds_of_setup hlimit hvalid hS
  obtain ⟨engine, hengine, hconsistent⟩ :=
    NewtonEngine.consistent_ofProblem (hholds.stores.formed hholds.formed) horder
  have hvalid' : problem.validate (c.withPolicy policy) = .ok (n, m) := by
    rw [ProblemInput.validate_eq_ok] at hvalid ⊢
    obtain ⟨hparts, hbounds, hdims, hchecks, hformats, -, hn, hm⟩ := hvalid
    exact ⟨hparts, hbounds, hdims, hchecks, hformats, hpolicy, hn, hm⟩
  refine ⟨{ prepared := some ⟨n, m, { S with settings := c.withPolicy policy, engine }⟩, target := .stdout },
    { S with settings := c.withPolicy policy, engine }, ?_, rfl, rfl, rfl, rfl, rfl, rfl, hconsistent⟩
  unfold Workspace.setup
  simp only [hvalid', Solver.ofProgram_withPolicy hS hengine]

/-- The results for a convex problem without a time limit do not depend on the policy by which its Newton systems are
factored. -/
theorem policy_irrelevant [Elimination.Rule] (hlimit : 0 < limit) (hsetup : (Workspace.setup problem c limit).1 = .ok w)
    (hw : w.prepared = some ⟨n, m, S⟩) (hpolicy : (c.withPolicy policy).validate = .ok ())
    (hQ : PosSemidef (problem.posed n m).Q) (htime : c.timeLimit = Scalar.infinity)
    (horder : NewtonEngine.PatternOrdered S.program.Q S.program.A c.factorizationMethod)
    (horder' : NewtonEngine.PatternOrdered S.program.Q S.program.A policy.method) :
    ∃ w', (Workspace.setup problem (c.withPolicy policy) limit).1 = .ok w' ∧
      ∀ x y, (w'.warmStart x y).2 = (w.warmStart x y).2 ∧
        ∀ clock clock', ∃ solution solution', (w.warmStart x y).1.solve clock = .ok solution ∧
          (w'.warmStart x y).1.solve clock' = .ok solution' ∧ solution'.results = solution.results := by
  obtain ⟨w', S', hsetup', hw', hprogram, hsettings', hx, hy, hlambda, hconsistent'⟩ :=
    exists_setup_withPolicy hlimit hsetup hw hpolicy horder'
  obtain ⟨hvalid, hS⟩ := setup_spec hsetup hw
  have hholds := Solver.holds_of_setup hlimit hvalid hS
  have hconsistent := Solver.consistent_of_setup hlimit hvalid hS horder
  have hsettings : S.settings = c := Solver.settings_of_setup hS
  refine ⟨w', hsetup', fun x y => ?_⟩
  obtain ⟨hout, hxWarm, hyWarm⟩ := Solver.warmStart_congr hprogram hx hy x y
  obtain ⟨hkeepProgram, hkeepSettings, hkeepEngine, hkeepLambda⟩ := S.warmStart_keeps x y
  obtain ⟨hkeepProgram', hkeepSettings', hkeepEngine', hkeepLambda'⟩ := S'.warmStart_keeps x y
  refine ⟨?_, fun clock clock' => ?_⟩
  · rw [Workspace.warmStart, Workspace.warmStart, hw, hw']
    exact hout
  · have hprepared : (w.warmStart x y).1.prepared = some ⟨n, m, (S.warmStart x y).1⟩ := by
      rw [Workspace.warmStart, hw]
    have hprepared' : (w'.warmStart x y).1.prepared = some ⟨n, m, (S'.warmStart x y).1⟩ := by
      rw [Workspace.warmStart, hw']
    generalize (S.warmStart x y).1 = S₁ at *
    generalize (S'.warmStart x y).1 = S₁' at *
    obtain ⟨solution, hsolve, -, hresults⟩ :=
      exists_solveInto_untimed hprepared (by rw [hkeepSettings, hsettings, htime]) clock _
    obtain ⟨solution', hsolve', -, hresults'⟩ :=
      exists_solveInto_untimed hprepared' (by rw [hkeepSettings', hsettings', ← htime]; rfl) clock' _
    refine ⟨solution, solution', hsolve, hsolve', ?_⟩
    have hscaled := hholds.serves.scaling.posSemidef hQ
    rw [hresults, hresults']
    have hsame : S₁'.settings = S₁.settings.withPolicy policy := by
      rw [hkeepSettings', hkeepSettings, hsettings', hsettings]
    refine Solver.results_eq_of_convex ?_ ?_ ?_ hsame hxWarm hyWarm ?_ ?_ ?_ _
    · rw [hkeepProgram]
      exact hscaled
    · rw [hkeepSettings]
      exact hholds.settings
    · rw [hkeepProgram', hkeepProgram, hprogram]
    · rw [hkeepLambda', hkeepLambda, hlambda]
    · rw [hkeepEngine, hkeepProgram]
      exact hconsistent
    · rw [hkeepEngine', hkeepProgram]
      exact hconsistent'

/-- From a point that is given the sample has the same results whether its systems are factored in augmented form or,
always from scratch, in reduced form. -/
theorem policy_irrelevant_lopsided :
    ∃ (w' : Workspace ℚ) (solution solution' : Solution ℚ),
      (Workspace.setup Sample.lopsided (Sample.settings.withPolicy Sample.reducedPolicy) 10).1 = .ok w' ∧
        ((Sample.opened Sample.lopsided).warmStart (some #[1, 1]) none).1.solve (fun _ => 0) = .ok solution ∧
          (w'.warmStart (some #[1, 1]) none).1.solve (fun _ => 0) = .ok solution' ∧
            solution'.results = solution.results := by
  obtain ⟨S, hw, hsettings, hstores⟩ := Sample.exists_solver_lopsided
  have hpolicy : (Sample.settings.withPolicy Sample.reducedPolicy).validate = .ok () := by decide +kernel
  obtain ⟨w', hsetup', hsame⟩ := policy_irrelevant (by norm_num) Sample.setup_lopsided hw hpolicy
    Sample.posSemidef_lopsided rfl
    (Sample.patternOrdered_lopsided hstores (.inl rfl)) (Sample.patternOrdered_lopsided hstores (.inr rfl))
  obtain ⟨-, hresults⟩ := hsame (some #[1, 1]) none
  obtain ⟨solution, solution', hsolve, hsolve', heq⟩ := hresults (fun _ => 0) fun _ => 0
  exact ⟨w', solution, solution', hsetup', hsolve, hsolve', heq⟩

end Workspace
end AugLag
