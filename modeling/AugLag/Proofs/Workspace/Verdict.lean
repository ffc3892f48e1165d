import AugLag.Proofs.Solver.Certificate
import AugLag.Proofs.Workspace.Session

/-!
# What a reported status vouches for

After any session, a solution that is reported meets the conditions of optimality of the problem as it was posed,
and a certificate that is reported shows that this problem has no solution. Both hold up to the tolerances of the
settings, the reduced ones if the status says so.
-/

namespace AugLag

variable {K : Type} {n m : Nat}

namespace Run

variable [ExactScalar K] {r : Run K n m} {S : ScaledProgram K n m} {c : Settings K}

/-- The test that stands behind a status. -/
def Vouches (r : Run K n m) (S : ScaledProgram K n m) (c : Settings K) : Status → Prop
  | .solved => r.Measured S ∧ r.residuals.isSolved c.epsAbs c.epsRel = true
  | .solvedInaccurate => r.Measured S ∧ r.residuals.isSolved c.reducedEpsAbs c.reducedEpsRel = true
  | .primalInfeasible => S.isPrimalInfeasible r.evaluation.dy c.epsPrimInf = true
  | .primalInfeasibleInaccurate => S.isPrimalInfeasible r.evaluation.dy c.reducedEpsPrimInf = true
  | .dualInfeasible => S.isDualInfeasible r.point.dx r.point.Qdx r.point.Adx c.epsDualInf = true
  | .dualInfeasibleInaccurate => S.isDualInfeasible r.point.dx r.point.Qdx r.point.Adx c.reducedEpsDualInf = true
  | _ => True

theorem Measured.vouches_of_finished (hm : r.Measured S) {status : Status} (h : r.finished S c = some status) :
    r.Vouches S c status := by
  rcases verdict_cases h with ⟨rfl, hsolved⟩ | ⟨rfl, hprimal⟩ | ⟨rfl, hdual⟩
  · exact ⟨hm, hsolved⟩
  · exact hprimal
  · exact hdual

theorem vouches_of_isLimit {status : Status} (h : status.isLimit = true) : r.Vouches S c status := by
  cases status <;> trivial

/-- Whatever ends an iteration, the final status has its test behind it. -/
theorem Ended.vouches {status : Status} (h : r.Ended S c status) : r.Vouches S c (r.reduced S c status) := by
  rcases h with rfl | ⟨hm, hcase⟩
  · trivial
  · unfold reduced
    by_cases hlim : status.isLimit = true
    · rw [if_pos hlim]
      cases hv : r.verdict S c.reducedEpsAbs c.reducedEpsRel c.reducedEpsPrimInf c.reducedEpsDualInf .solvedInaccurate
          .primalInfeasibleInaccurate .dualInfeasibleInaccurate with
      | none => exact vouches_of_isLimit hlim
      | some verdict =>
          rcases verdict_cases hv with ⟨rfl, hsolved⟩ | ⟨rfl, hprimal⟩ | ⟨rfl, hdual⟩
          · exact ⟨hm, hsolved⟩
          · exact hprimal
          · exact hdual
    · rw [if_neg hlim]
      rcases hcase with hfin | habs
      · exact hm.vouches_of_finished hfin
      · exact absurd habs hlim

end Run

namespace Solver

variable [ExactScalar K] {S : Solver K n m} {P : PosedProblem K n m} {limit : K}

theorem Serves.coherent_start (h : S.Serves P limit) : S.start.Coherent S.program :=
  ⟨Point.carries_start h.scaling.cost_upper h.scaling.cost_cols S.xStart S.yStart,
    Penalty.positive_initial h.settings S.rhoFloor⟩

/-- A run ends with up to date products and with a status that has its test behind it. -/
theorem Serves.run_vouches (h : S.Serves P limit) (expired : Nat → Bool) :
    (S.run expired).2.run.Coherent S.program ∧
      (S.run expired).2.run.Vouches S.program S.settings (S.run expired).2.info.status := by
  obtain ⟨hcoh, hend⟩ := Run.complete_spec h.scaling.cost_upper h.scaling.cost_cols h.settings h.coherent_start rfl
    expired
  exact ⟨hcoh, hend.vouches⟩

end Solver

namespace Outcome

variable [ExactScalar K] (o : Outcome K n m) (S : ScaledProgram K n m)

theorem results_solution (h : o.info.status.hasSolution = true) :
    (o.results S).x = Array.ofFn (o.run.reportedPrimal S) ∧ (o.results S).y = Array.ofFn (o.run.reportedDual S) := by
  have hx : (S.scaling.unscalePrimal o.run.point.x).get = o.run.reportedPrimal S :=
    funext fun j => Vec.get_hadamard _ _ j
  have hy : (S.scaling.unscaleDual o.run.evaluation.multiplier).get = o.run.reportedDual S := by
    funext i
    rw [Scaling.unscaleDual, Vec.get_scale, Vec.get_hadamard, Scalar.recip_eq_inv]
    rfl
  simp only [results, orNaN, h, if_true]
  rw [Vec.toArray_eq_ofFn, Vec.toArray_eq_ofFn, hx, hy]
  exact ⟨rfl, rfl⟩

theorem results_primalCertificate (h : o.info.status.isPrimalInfeasible = true) :
    (o.results S).primalCertificate =
      Array.ofFn (normalized (Vec.hadamard o.run.evaluation.dy S.scaling.e)).get := by
  simp only [results, orNaN, h, if_true]
  exact Vec.toArray_eq_ofFn _

theorem results_dualCertificate (h : o.info.status.isDualInfeasible = true) :
    (o.results S).dualCertificate = Array.ofFn (normalized (Vec.hadamard o.run.point.dx S.scaling.d)).get := by
  simp only [results, orNaN, h, if_true]
  exact Vec.toArray_eq_ofFn _

end Outcome

/-! ## Certificates -/

namespace Settings

/-- The tolerance at which a status finds the constraints without a solution. -/
def primalInfeasibilityTolerance (c : Settings K) : Status → K
  | .primalInfeasibleInaccurate => c.reducedEpsPrimInf
  | _ => c.epsPrimInf

/-- The tolerance at which a status finds the cost without a bound. -/
def dualInfeasibilityTolerance (c : Settings K) : Status → K
  | .dualInfeasibleInaccurate => c.reducedEpsDualInf
  | _ => c.epsDualInf

end Settings

namespace Solver

variable [ExactScalar K] {S : Solver K n m} {P : PosedProblem K n m} {limit : K}

/-- A reported certificate of primal infeasibility is one at the tolerance of the status. -/
theorem Serves.exists_primalCertificate (h : S.Serves P limit) (expired : Nat → Bool)
    (hstatus : (S.run expired).2.info.status.isPrimalInfeasible = true) :
    ∃ v, ((S.run expired).2.results S.program).primalCertificate = Array.ofFn v ∧
      P.PrimalCertificate limit (S.settings.primalInfeasibilityTolerance (S.run expired).2.info.status) v := by
  obtain ⟨-, hvouch⟩ := h.run_vouches expired
  refine ⟨_, Outcome.results_primalCertificate _ S.program hstatus, ?_⟩
  cases hs : (S.run expired).2.info.status with
  | primalInfeasible =>
      rw [hs] at hvouch
      exact h.scaling.primalCertificate (Settings.epsPrimInf_nonneg h.settings) hvouch
  | primalInfeasibleInaccurate =>
      rw [hs] at hvouch
      exact h.scaling.primalCertificate (Settings.reducedEpsPrimInf_nonneg h.settings) hvouch
  | _ =>
      rw [hs] at hstatus
      cases hstatus

theorem Serves.exists_dualCertificate (h : S.Serves P limit) (expired : Nat → Bool)
    (hstatus : (S.run expired).2.info.status.isDualInfeasible = true) :
    ∃ d, ((S.run expired).2.results S.program).dualCertificate = Array.ofFn d ∧
      P.DualCertificate limit (S.settings.dualInfeasibilityTolerance (S.run expired).2.info.status) d := by
  obtain ⟨hcoherent, hvouch⟩ := h.run_vouches expired
  refine ⟨_, Outcome.results_dualCertificate _ S.program hstatus, ?_⟩
  cases hs : (S.run expired).2.info.status with
  | dualInfeasible =>
      rw [hs] at hvouch
      exact h.scaling.dualCertificate hcoherent.carries.Adx_eq hcoherent.carries.Qdx_eq hvouch
  | dualInfeasibleInaccurate =>
      rw [hs] at hvouch
      exact h.scaling.dualCertificate hcoherent.carries.Adx_eq hcoherent.carries.Qdx_eq hvouch
  | _ =>
      rw [hs] at hstatus
      cases hstatus

end Solver

/-! ## Sample sessions -/

namespace Sample

def settings : Settings ℚ := { Settings.default with factorizationMethod := .kkt, verbose := false }

/-- One variable between zero and three, with a cost that is least at two. -/
def bounded : ProblemInput ℚ :=
  { Q := some (.dense 1 1 #[1]), q := some #[-2], A := some (.dense 1 1 #[1]), bmin := some #[0], bmax := some #[3] }

/-- A row of zeros that would have to lie between one and three. -/
def infeasible : ProblemInput ℚ :=
  { Q := none, q := some #[0], A := some (.dense 1 1 #[0]), bmin := some #[1], bmax := some #[3] }

/-- A linear cost without any constraint on the variable. -/
def unbounded : ProblemInput ℚ :=
  { Q := none, q := some #[1], A := some (.dense 1 1 #[0]), bmin := some #[0], bmax := some #[3] }

def opened (problem : ProblemInput ℚ) : Workspace ℚ :=
  match (Workspace.setup problem settings 10).1 with
  | .ok w => w
  | .error _ => { prepared := none, target := .stdout }

theorem setup_eq_opened (problem : ProblemInput ℚ) (h : (Workspace.setup problem settings 10).1.toBool = true) :
    (Workspace.setup problem settings 10).1 = .ok (opened problem) := by
  unfold opened
  split
  · assumption
  · next heq =>
      rw [heq] at h
      cases h

/-- The solution at the new upper bound is known beforehand. -/
def narrowed : Workspace ℚ :=
  (((opened bounded).updateBounds none (some #[1])).1.warmStart (some #[1]) (some #[1])).1

theorem session_opened (problem : ProblemInput ℚ) (h : (Workspace.setup problem settings 10).1.toBool = true)
    (hdims : (opened problem).dims = some (1, 1)) : Session 10 (opened problem) (problem.posed 1 1) :=
  .setup (setup_eq_opened problem h) hdims

theorem session_narrowed : Session 10 narrowed ((bounded.posed 1 1).withBounds none (some #[1])) := by
  refine .warmStart (.updateBounds (session_opened bounded ?_ ?_) ?_) ?_
  · decide +kernel
  · decide +kernel
  · decide +kernel
  · decide +kernel

/-- The scaled bounds of what a workspace holds stay inside of the limit. -/
def boundsInside (w : Workspace ℚ) : Bool :=
  match w.prepared with
  | some ⟨1, 1, S⟩ => decide S.program.BoundsInside
  | _ => false

theorem boundsInside_solver {w : Workspace ℚ} {S : Solver ℚ 1 1} (hw : w.prepared = some ⟨1, 1, S⟩)
    (h : boundsInside w = true) : S.program.BoundsInside := by
  rw [boundsInside, hw] at h
  exact of_decide_eq_true h

def status (w : Workspace ℚ) : Option Status := (w.solve fun _ => 0).toOption.map fun s => s.results.info.status

def iterations (w : Workspace ℚ) : Option Nat := (w.solve fun _ => 0).toOption.map fun s => s.results.info.iter

theorem exists_solution (w : Workspace ℚ) (status : Status) (h : Sample.status w = some status) :
    ∃ solution, w.solve (fun _ => 0) = .ok solution ∧ solution.results.info.status = status := by
  unfold Sample.status at h
  cases hs : w.solve fun _ => 0 with
  | error e =>
      rw [hs] at h
      cases h
  | ok solution =>
      rw [hs] at h
      exact ⟨solution, rfl, Option.some.inj h⟩

end Sample

/-! ## What is reported -/

namespace Session

variable [ExactMachine K] {limit : K} {w : Workspace K} {P : PosedProblem K n m} {S : Solver K n m}
  {clock : Nat → Float} {solution : Solution K}

/-- A solution reported after any session meets the conditions of optimality of the posed problem. -/
theorem reported_solution_optimal [Elimination.Rule] (h : Session limit w P) (hlimit : 0 < limit)
    (hw : w.prepared = some ⟨n, m, S⟩) (hin : S.program.BoundsInside) (hsolve : w.solve clock = .ok solution) :
    (solution.results.info.status = .solved →
      ∃ x y z, solution.results.x = Array.ofFn x ∧ solution.results.y = Array.ofFn y ∧
        P.Optimal limit S.settings.epsAbs S.settings.epsRel x y z) ∧
    (solution.results.info.status = .solvedInaccurate →
      ∃ x y z, solution.results.x = Array.ofFn x ∧ solution.results.y = Array.ofFn y ∧
        P.Optimal limit S.settings.reducedEpsAbs S.settings.reducedEpsRel x y z) := by
  have hS := h.serves hlimit hw
  obtain ⟨-, hres⟩ := Workspace.solve_eq hw hsolve
  obtain ⟨hcoh, hvouch⟩ := hS.run_vouches fun updates => S.settings.timeLimit < clock updates
  rw [hres]
  refine ⟨fun hs => ?_, fun hs => ?_⟩
  · have hs' : (S.run fun updates => S.settings.timeLimit < clock updates).2.info.status = .solved := hs
    obtain ⟨hx, hy⟩ := Outcome.results_solution _ S.program (by rw [hs']; rfl)
    rw [hs'] at hvouch
    exact ⟨_, _, _, hx, hy, hvouch.1.optimal hcoh hS.scaling hlimit hin hvouch.2⟩
  · have hs' : (S.run fun updates => S.settings.timeLimit < clock updates).2.info.status = .solvedInaccurate := hs
    obtain ⟨hx, hy⟩ := Outcome.results_solution _ S.program (by rw [hs']; rfl)
    rw [hs'] at hvouch
    exact ⟨_, _, _, hx, hy, hvouch.1.optimal hcoh hS.scaling hlimit hin hvouch.2⟩

theorem reported_solution_optimal_narrowed :
    ∃ (S : Solver ℚ 1 1) (solution : Solution ℚ) (x y z : Fin 1 → ℚ),
      Sample.narrowed.prepared = some ⟨1, 1, S⟩ ∧ S.program.BoundsInside ∧
        Sample.narrowed.solve (fun _ => 0) = .ok solution ∧ solution.results.info.status = .solved ∧
          solution.results.x = Array.ofFn x ∧ solution.results.y = Array.ofFn y ∧
            ((Sample.bounded.posed 1 1).withBounds none (some #[1])).Optimal 10 S.settings.epsAbs S.settings.epsRel
              x y z := by
  obtain ⟨S, hw, -⟩ := Sample.session_narrowed.exists_serves (by norm_num)
  have hin := Sample.boundsInside_solver hw (by decide +kernel)
  obtain ⟨solution, hsolve, hstatus⟩ := Sample.exists_solution Sample.narrowed .solved (by decide +kernel)
  obtain ⟨x, y, z, hx, hy, hopt⟩ :=
    (Session.reported_solution_optimal Sample.session_narrowed (by norm_num) hw hin hsolve).1 hstatus
  exact ⟨S, solution, x, y, z, hw, hin, hsolve, hstatus, hx, hy, hopt⟩

theorem exists_primalCertificate [Elimination.Rule] (h : Session limit w P) (hlimit : 0 < limit)
    (hw : w.prepared = some ⟨n, m, S⟩) (hsolve : w.solve clock = .ok solution)
    (hstatus : solution.results.info.status.isPrimalInfeasible = true) :
    ∃ v, solution.results.primalCertificate = Array.ofFn v ∧
      P.PrimalCertificate limit (S.settings.primalInfeasibilityTolerance solution.results.info.status) v := by
  obtain ⟨-, hresults⟩ := Workspace.solve_eq hw hsolve
  rw [hresults] at hstatus ⊢
  exact (h.serves hlimit hw).exists_primalCertificate _ hstatus

theorem exists_dualCertificate [Elimination.Rule] (h : Session limit w P) (hlimit : 0 < limit)
    (hw : w.prepared = some ⟨n, m, S⟩) (hsolve : w.solve clock = .ok solution)
    (hstatus : solution.results.info.status.isDualInfeasible = true) :
    ∃ d, solution.results.dualCertificate = Array.ofFn d ∧
      P.DualCertificate limit (S.settings.dualInfeasibilityTolerance solution.results.info.status) d := by
  obtain ⟨-, hresults⟩ := Workspace.solve_eq hw hsolve
  rw [hresults] at hstatus ⊢
  exact (h.serves hlimit hw).exists_dualCertificate _ hstatus

/-- A certificate reported after any session shows that the posed problem has no solution. -/
theorem reported_certificate_valid [Elimination.Rule] (h : Session limit w P) (hlimit : 0 < limit)
    (hw : w.prepared = some ⟨n, m, S⟩) (hsolve : w.solve clock = .ok solution) :
    (solution.results.info.status = .primalInfeasible →
      ∃ v, solution.results.primalCertificate = Array.ofFn v ∧ P.PrimalCertificate limit S.settings.epsPrimInf v) ∧
    (solution.results.info.status = .primalInfeasibleInaccurate →
      ∃ v, solution.results.primalCertificate = Array.ofFn v ∧
        P.PrimalCertificate limit S.settings.reducedEpsPrimInf v) ∧
    (solution.results.info.status = .dualInfeasible →
      ∃ d, solution.results.dualCertificate = Array.ofFn d ∧ P.DualCertificate limit S.settings.epsDualInf d) ∧
    (solution.results.info.status = .dualInfeasibleInaccurate →
      ∃ d, solution.results.dualCertificate = Array.ofFn d ∧
        P.DualCertificate limit S.settings.reducedEpsDualInf d) := by
  have hprimal := h.exists_primalCertificate hlimit hw hsolve
  have hdual := h.exists_dualCertificate hlimit hw hsolve
  refine ⟨fun hs => ?_, fun hs => ?_, fun hs => ?_, fun hs => ?_⟩
  · rw [hs] at hprimal
    exact hprimal rfl
  · rw [hs] at hprimal
    exact hprimal rfl
  · rw [hs] at hdual
    exact hdual rfl
  · rw [hs] at hdual
    exact hdual rfl

theorem reported_certificate_valid_samples :
    (∃ (S : Solver ℚ 1 1) (solution : Solution ℚ) (v : Fin 1 → ℚ),
      (Sample.opened Sample.infeasible).prepared = some ⟨1, 1, S⟩ ∧
        (Sample.opened Sample.infeasible).solve (fun _ => 0) = .ok solution ∧
          solution.results.info.status = .primalInfeasible ∧ solution.results.primalCertificate = Array.ofFn v ∧
            (Sample.infeasible.posed 1 1).PrimalCertificate 10 S.settings.epsPrimInf v) ∧
    (∃ (S : Solver ℚ 1 1) (solution : Solution ℚ) (d : Fin 1 → ℚ),
      (Sample.opened Sample.unbounded).prepared = some ⟨1, 1, S⟩ ∧
        (Sample.opened Sample.unbounded).solve (fun _ => 0) = .ok solution ∧
          solution.results.info.status = .dualInfeasible ∧ solution.results.dualCertificate = Array.ofFn d ∧
            (Sample.unbounded.posed 1 1).DualCertificate 10 S.settings.epsDualInf d) := by
  have hinfeasible := Sample.session_opened Sample.infeasible (by decide +kernel) (by decide +kernel)
  have hunbounded := Sample.session_opened Sample.unbounded (by decide +kernel) (by decide +kernel)
  refine ⟨?_, ?_⟩
  · obtain ⟨S, hw, -⟩ := hinfeasible.exists_serves (by norm_num)
    obtain ⟨solution, hsolve, hstatus⟩ := Sample.exists_solution (Sample.opened Sample.infeasible) .primalInfeasible
      (by decide +kernel)
    obtain ⟨v, hv, hcert⟩ := (reported_certificate_valid hinfeasible (by norm_num) hw hsolve).1 hstatus
    exact ⟨S, solution, v, hw, hsolve, hstatus, hv, hcert⟩
  · obtain ⟨S, hw, -⟩ := hunbounded.exists_serves (by norm_num)
    obtain ⟨solution, hsolve, hstatus⟩ := Sample.exists_solution (Sample.opened Sample.unbounded) .dualInfeasible
      (by decide +kernel)
    obtain ⟨d, hd, hcert⟩ := (reported_certificate_valid hunbounded (by norm_num) hw hsolve).2.2.1 hstatus
    exact ⟨S, solution, d, hw, hsolve, hstatus, hd, hcert⟩

end Session
end AugLag
