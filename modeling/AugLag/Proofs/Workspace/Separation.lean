import AugLag.Proofs.Solver.Separation
import AugLag.Proofs.Workspace.Convex

/-!
# Strict certificates of sessions

Which certificates the tests of a session pass, and what those that are reported rule out. At positive tolerances a
reported certificate without residual leaves no feasible point, or no lower bound of the cost. At the tolerance zero it
need not.
-/

namespace AugLag

variable {K : Type} {n m : Nat}

open scoped Matrix

/-! ## A sample -/

namespace Sample

/-- A row of zeros that may lie between zero and one, which every point satisfies at the lower bound. -/
def level : ProblemInput ℚ :=
  { Q := some (.dense 1 1 #[1]), q := some #[0], A := some (.dense 1 1 #[0]), bmin := some #[0], bmax := some #[1] }

/-- The sample without a tolerance on certificates, started with a multiplier. -/
def leveled : Workspace ℚ :=
  (((opened level).updateSettings { settings with epsPrimInf := 0 }).1.warmStart none (some #[10])).1

def reportedCertificate (w : Workspace ℚ) : Option (Array ℚ) :=
  (w.solve fun _ => 0).toOption.map fun s => s.results.primalCertificate

/-- The calls are accepted, and a solve reports a certificate along which the bounds are level. -/
theorem leveled_checked :
    (Workspace.setup level settings 10).1.toBool = true ∧ (opened level).dims = some (1, 1) ∧
      ((opened level).updateSettings { settings with epsPrimInf := 0 }).2 = .ok () ∧
      (((opened level).updateSettings { settings with epsPrimInf := 0 }).1.warmStart none (some #[10])).2 = .ok () ∧
      status leveled = some .primalInfeasible ∧ reportedCertificate leveled = some #[-1] ∧
      (level.posed 1 1).support 10 ![-1] = 0 := by
  decide +kernel

theorem session_leveled : Session 10 leveled (level.posed 1 1) := by
  obtain ⟨hsetup, hdims, hsettings, hstart, -⟩ := leveled_checked
  exact .warmStart (.updateSettings (session_opened level hsetup hdims) hsettings) hstart

theorem feasible_of_level {P : PosedProblem ℚ 1 1} {x : Fin 1 → ℚ} (hx : P.A *ᵥ x = 0)
    (hbounds : ∀ i, P.lowerAt 10 i ≤ 0 ∧ 0 ≤ P.upperAt 10 i) : P.Feasible 10 x where
  lower_le i _ := by
    rw [hx]
    exact (hbounds i).1
  le_upper i _ := by
    rw [hx]
    exact (hbounds i).2

theorem feasible_level (x : Fin 1 → ℚ) : (level.posed 1 1).Feasible 10 x := by
  have hA : (level.posed 1 1).A = 0 := by
    decide
  refine feasible_of_level ?_ (by decide)
  rw [hA, Matrix.zero_mulVec]

theorem objective_level_nonneg (x : Fin 1 → ℚ) : 0 ≤ (level.posed 1 1).objective x := by
  have hQ : (level.posed 1 1).Q = 1 := by
    decide
  have hq : (level.posed 1 1).q = 0 := by
    decide
  rw [PosedProblem.objective, hQ, hq, Matrix.one_mulVec, zero_dotProduct, add_zero]
  exact div_nonneg (Finset.sum_nonneg fun i _ => mul_self_nonneg (x i)) zero_le_two

theorem separates_level : (level.posed 1 1).Separates 10 ![-1] := by
  have hA : (level.posed 1 1).A = 0 := by
    decide
  have hpresent : (level.posed 1 1).PushesPresent 10 ![-1] := by
    decide
  refine { hpresent with force := ?_ }
  rw [hA, Matrix.transpose_zero, Matrix.zero_mulVec]

/-- The sample problems without solutions have exact certificates of any size. -/
theorem separates_infeasible (v : Fin 1 → ℚ) : (infeasible.posed 1 1).Separates 10 v := by
  have hA : (infeasible.posed 1 1).A = 0 := by
    decide
  have hbounds : ∀ i, (infeasible.posed 1 1).HasLower 10 i ∧ (infeasible.posed 1 1).HasUpper 10 i := by
    decide
  refine { force := ?_, no_upper := fun i hi => absurd (hbounds i).2 hi, no_lower := fun i hi => absurd (hbounds i).1 hi }
  rw [hA, Matrix.transpose_zero, Matrix.zero_mulVec]

theorem recedes_unbounded (d : Fin 1 → ℚ) : (unbounded.posed 1 1).Recedes 10 d := by
  have hA : (unbounded.posed 1 1).A = 0 := by
    decide
  have hQ : (unbounded.posed 1 1).Q = 0 := by
    decide
  refine { curvature := ?_, lower := fun i _ => ?_, upper := fun i _ => ?_ }
  · rw [hQ, Matrix.zero_mulVec]
  · rw [hA, Matrix.zero_mulVec]
    rfl
  · rw [hA, Matrix.zero_mulVec]
    rfl

theorem feasible_unbounded : (unbounded.posed 1 1).Feasible 10 0 :=
  feasible_of_level (Matrix.mulVec_zero _) (by decide)

theorem exists_solver_opened {problem : ProblemInput ℚ} (h : (Workspace.setup problem settings 10).1.toBool = true)
    (hdims : (opened problem).dims = some (1, 1)) :
    ∃ S : Solver ℚ 1 1, (opened problem).prepared = some ⟨1, 1, S⟩ ∧ S.settings = settings ∧
      S.program.Stores (problem.normalize 1 1 10).1 := by
  obtain ⟨S, hw, hvalid, hS⟩ := Workspace.setup_eq (setup_eq_opened problem h) hdims
  exact ⟨S, hw, Solver.settings_of_setup hS, (Solver.holds_of_setup (by norm_num) hvalid hS).stores⟩

/-- With the tolerances by default both problems without solutions are found out. -/
theorem unsolvable_checked :
    (0 < settings.epsPrimInf ∧ 0 < settings.epsDualInf) ∧
      ((Workspace.setup infeasible settings 10).1.toBool = true ∧ (opened infeasible).dims = some (1, 1) ∧
        status (opened infeasible) = some .primalInfeasible) ∧
      ((Workspace.setup unbounded settings 10).1.toBool = true ∧ (opened unbounded).dims = some (1, 1) ∧
        status (opened unbounded) = some .dualInfeasible) := by
  decide +kernel

end Sample

/-! ## What is reported -/

namespace Session

variable [ExactMachine K] {limit : K} {w : Workspace K} {P : PosedProblem K n m} {S : Solver K n m}

/-- At a positive tolerance both tests are strict, and at the tolerance zero they are not: they take in all exact
certificates, also those along which the bounds or the cost are level. If the tolerance of a reported status is positive,
a certificate without residual rules out every feasible point, or every lower bound of the cost. -/
theorem strict_certificates [Elimination.Rule] (h : Session limit w P) (hlimit : 0 < limit)
    (hw : w.prepared = some ⟨n, m, S⟩) :
    (∀ eps, 0 < eps →
      (∀ dy, S.program.isPrimalInfeasible dy eps = true → S.program.support dy < 0) ∧
        ∀ dx Qdx Adx, S.program.isDualInfeasible dx Qdx Adx eps = true → Vec.dot S.program.q dx < 0) ∧
    (∀ dy, S.program.isPrimalInfeasible dy 0 = true ↔ (Vec.hadamard dy S.program.scaling.e).get ≠ 0 ∧
      P.Separates limit (Vec.hadamard dy S.program.scaling.e).get ∧ S.program.support dy ≤ 0) ∧
    (∀ (dx Qdx : Vector K n) (Adx : Vector K m), Adx.get = S.program.A.toMatrix m n *ᵥ dx.get →
      Qdx.get = S.program.Q.symMatrix n *ᵥ dx.get →
        (S.program.isDualInfeasible dx Qdx Adx 0 = true ↔ (Vec.hadamard dx S.program.scaling.d).get ≠ 0 ∧
          P.Recedes limit (Vec.hadamard dx S.program.scaling.d).get ∧ Vec.dot S.program.q dx ≤ 0)) ∧
    ∀ (clock : Nat → Float) (solution : Solution K), w.solve clock = .ok solution →
      (solution.results.info.status.isPrimalInfeasible = true →
        0 < S.settings.primalInfeasibilityTolerance solution.results.info.status →
          ∃ v, solution.results.primalCertificate = Array.ofFn v ∧ P.support limit v < 0 ∧
            (P.Separates limit v → ∀ x, ¬P.Feasible limit x)) ∧
      (solution.results.info.status.isDualInfeasible = true →
        0 < S.settings.dualInfeasibilityTolerance solution.results.info.status →
          ∃ d, solution.results.dualCertificate = Array.ofFn d ∧ P.q ⬝ᵥ d < 0 ∧
            (P.Recedes limit d → ∀ x, P.Feasible limit x → ∀ b, ∃ x', P.Feasible limit x' ∧ P.objective x' < b)) := by
  have hS := h.serves hlimit hw
  refine ⟨fun eps heps => ⟨fun dy => hS.scaling.support_neg heps, fun dx Qdx Adx =>
    ScaledProgram.slope_neg hS.scaling.c_pos heps⟩, hS.scaling.isPrimalInfeasible_zero_iff,
    fun dx Qdx Adx hAdx hQdx => hS.scaling.isDualInfeasible_zero_iff hAdx hQdx, fun clock solution hsolve => ?_⟩
  refine ⟨fun hstatus heps => ?_, fun hstatus heps => ?_⟩
  · obtain ⟨v, hv, hcertificate⟩ := h.exists_primalCertificate hlimit hw hsolve hstatus
    have hneg : P.support limit v < 0 := hcertificate.support.trans_lt (neg_lt_zero.mpr heps)
    exact ⟨v, hv, hneg, fun hseparates => hseparates.not_feasible hneg⟩
  · obtain ⟨d, hd, hcertificate⟩ := h.exists_dualCertificate hlimit hw hsolve hstatus
    have hneg : P.q ⬝ᵥ d < 0 := hcertificate.slope.trans_lt (neg_lt_zero.mpr heps)
    exact ⟨d, hd, hneg, fun hrecedes x hx => hrecedes.unbounded hS.scaling.transpose_cost hneg hx⟩

theorem strict_certificates_samples :
    (∃ solution, (Sample.opened Sample.infeasible).solve (fun _ => 0) = .ok solution ∧
      solution.results.info.status = .primalInfeasible ∧ ∀ x, ¬(Sample.infeasible.posed 1 1).Feasible 10 x) ∧
    (∃ solution, (Sample.opened Sample.unbounded).solve (fun _ => 0) = .ok solution ∧
      solution.results.info.status = .dualInfeasible ∧
        ∀ b, ∃ x, (Sample.unbounded.posed 1 1).Feasible 10 x ∧ (Sample.unbounded.posed 1 1).objective x < b) := by
  obtain ⟨⟨hprimal, hdual⟩, ⟨hsetup, hdims, hinfeasible⟩, ⟨hsetup', hdims', hunbounded⟩⟩ :=
    Sample.unsolvable_checked
  refine ⟨?_, ?_⟩
  · obtain ⟨S, hw, hsettings, -⟩ := Sample.exists_solver_opened hsetup hdims
    obtain ⟨solution, hsolve, hstatus⟩ :=
      Sample.exists_solution (Sample.opened Sample.infeasible) .primalInfeasible hinfeasible
    obtain ⟨-, -, -, hreported⟩ :=
      strict_certificates (Sample.session_opened Sample.infeasible hsetup hdims) (by norm_num) hw
    obtain ⟨v, -, -, hnone⟩ := (hreported (fun _ => 0) solution hsolve).1 (by rw [hstatus]; rfl)
      (by rw [hstatus, hsettings]; exact hprimal)
    exact ⟨solution, hsolve, hstatus, hnone (Sample.separates_infeasible v)⟩
  · obtain ⟨S, hw, hsettings, -⟩ := Sample.exists_solver_opened hsetup' hdims'
    obtain ⟨solution, hsolve, hstatus⟩ :=
      Sample.exists_solution (Sample.opened Sample.unbounded) .dualInfeasible hunbounded
    obtain ⟨-, -, -, hreported⟩ :=
      strict_certificates (Sample.session_opened Sample.unbounded hsetup' hdims') (by norm_num) hw
    obtain ⟨d, -, -, hnone⟩ := (hreported (fun _ => 0) solution hsolve).2 (by rw [hstatus]; rfl)
      (by rw [hstatus, hsettings]; exact hdual)
    exact ⟨solution, hsolve, hstatus, hnone (Sample.recedes_unbounded d) 0 Sample.feasible_unbounded⟩

/-- Without a tolerance the sample is reported as infeasible, through an exact certificate. Yet every point is feasible,
and the cost is bounded from below. -/
theorem level_certificate_reported :
    Session 10 Sample.leveled (Sample.level.posed 1 1) ∧ (∀ x, (Sample.level.posed 1 1).Feasible 10 x) ∧
      (∀ x, 0 ≤ (Sample.level.posed 1 1).objective x) ∧ Sample.status Sample.leveled = some .primalInfeasible ∧
        Sample.reportedCertificate Sample.leveled = some #[-1] ∧ (Sample.level.posed 1 1).Separates 10 ![-1] ∧
          (Sample.level.posed 1 1).support 10 ![-1] = 0 := by
  obtain ⟨-, -, -, -, hstatus, hcertificate, hsupport⟩ := Sample.leveled_checked
  exact ⟨Sample.session_leveled, Sample.feasible_level, Sample.objective_level_nonneg, hstatus, hcertificate,
    Sample.separates_level, hsupport⟩

end Session
end AugLag
