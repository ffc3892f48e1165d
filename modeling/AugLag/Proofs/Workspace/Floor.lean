import AugLag.Proofs.Solver.Floor
import AugLag.Proofs.Workspace.Replay

/-!
# Weights above the curvature

With the setting for problems that may be nonconvex, a workspace estimates the smallest eigenvalue of its scaled cost
once, and every solve keeps the proximal weight at a margin above its negative (`floor_outweighs_curvature`). Where the
estimate has missed the most negative curvature, the weight need not outweigh it (`curvature_overlooked`).
-/

namespace AugLag

open scoped Matrix

/-! ## The estimate that a workspace keeps -/

section General

variable {T : Type} {n m : Nat}

namespace Solver

variable [Scalar T] {S S' : Solver T n m}

/-- The estimate is that of the scaled cost, if the settings ask for one. -/
def Estimated (S : Solver T n m) : Prop :=
  S.lambdaMin = if S.settings.nonconvex then some (minEigenvalue S.program.Q n) else none

theorem estimated_of_setup [Elimination.Rule] {P : QuadraticProgram T n m} {c : Settings T}
    (h : Solver.ofProgram P c = .ok S) :
    S.Estimated := by
  unfold Solver.ofProgram at h
  obtain ⟨engine, -, rfl⟩ := map_eq_ok.mp h
  rfl

theorem Estimated.warmStart (h : S.Estimated) (x y : Option (Array T)) : (S.warmStart x y).1.Estimated := by
  obtain ⟨hprogram, hsettings, -, hlambda⟩ := S.warmStart_keeps x y
  rw [Estimated, hprogram, hsettings, hlambda]
  exact h

theorem Estimated.updateCost (h : S.Estimated) {q : Array T} (hS : S.updateCost q = .ok S') : S'.Estimated := by
  obtain ⟨v, -, rfl⟩ := map_eq_ok.mp hS
  exact h

theorem Estimated.updateBounds (h : S.Estimated) {lower upper : Option (Array T)}
    (hS : S.updateBounds lower upper = .ok S') : S'.Estimated := by
  obtain ⟨bmin, bmax, -, rfl⟩ := exists_of_updateBounds hS
  exact h

/-- New settings cannot ask for an estimate that was not made, or drop one that was. -/
theorem Estimated.updateSettings (h : S.Estimated) {c : Settings T} (hS : S.updateSettings c = .ok S') :
    S'.Estimated := by
  obtain ⟨u, hc, rfl⟩ := map_eq_ok.mp hS
  have hsame := Settings.nonconvex_of_validateAsUpdate (mapError_eq_ok.mp hc)
  rw [Estimated, hsame]
  exact h

end Solver

theorem Workspace.Reachable.estimated [Elimination.Rule] [MachineScalar T] {w : Workspace T} (h : Reachable w) :
    ∀ p ∈ w.prepared, p.solver.Estimated :=
  h.keeps
    { setup := fun _ hS => Solver.estimated_of_setup hS
      warmStart := fun x y hS => hS.warmStart x y
      updateCost := fun _ hS heq => hS.updateCost heq
      updateBounds := fun _ _ hS heq => hS.updateBounds heq
      updateSettings := fun _ hS heq => hS.updateSettings heq
      run := fun _ hS => hS }

end General

/-! ## Sample costs -/

/-- Without scaling a program is solved as it is, from a start at zero. -/
theorem Solver.exists_ofProgram_of_unscaled {T : Type} [Scalar T] [Elimination.Rule] {n m : Nat}
    {P : QuadraticProgram T n m} {c : Settings T} (hplain : c.scalingEnable = false)
    {engine : NewtonEngine T n m} (hengine : NewtonEngine.ofProblem P.Q P.A n m c.factorizationMethod = .ok engine) :
    ∃ S : Solver T n m, Solver.ofProgram P c = .ok S ∧ S.settings = c ∧ S.program = ScaledProgram.ofProgram P ∧
      S.start.point = Point.start (ScaledProgram.ofProgram P) (Vec.zeros n) (Vec.zeros m) := by
  have hsame : (ScaledProgram.ofProgram P).equilibrate c = ScaledProgram.ofProgram P := by
    simp [ScaledProgram.equilibrate, hplain]
  unfold Solver.ofProgram Solver.fresh
  simp only [hsame, map_eq_ok]
  exact ⟨_, ⟨engine, hengine, rfl⟩, rfl, rfl, rfl⟩

namespace Sample

/-- Settings for problems that may be nonconvex, without scaling. -/
noncomputable def curvedSettings : Settings ℝ :=
  { Settings.default with nonconvex := true, scalingEnable := false, factorizationMethod := .kkt, verbose := false }

/-- The quadratic cost with the entries `a`, `b` and `d`, of which the upper triangle is stored. -/
def curvedCost (a b d : ℝ) : SparseMatrix ℝ :=
  { rows := 2, cols := 2, colPtr := #[0, 1, 3], rowIdx := #[0, 0, 1], values := #[a, b, d] }

noncomputable def identityConstraints : SparseMatrix ℝ :=
  { rows := 2, cols := 2, colPtr := #[0, 1, 2], rowIdx := #[0, 1], values := #[1, 1] }

/-- A quadratic cost over a square. -/
noncomputable def curved (a b d : ℝ) : ProblemInput ℝ :=
  { Q := some (.sparse (curvedCost a b d))
    q := some #[1, 1]
    A := some (.sparse identityConstraints)
    bmin := some #[-1, -1]
    bmax := some #[1, 1] }

theorem validate_curvedSettings : curvedSettings.validate = .ok () := by
  have hsingle : Setting.all.find? (fun s => !s.range.contains (curvedSettings.get s)) = none := by
    rw [List.find?_eq_none]
    intro s _
    cases s <;>
      norm_num [Setting.range, SettingRange.contains, curvedSettings, Settings.default, Settings.get,
        Scalar.ofScientific_eq]
    decide
  unfold Settings.validate
  rw [hsingle]
  norm_num [Settings.jointConditions, curvedSettings, Settings.default, Scalar.ofScientific_eq]

/-- A matrix of real numbers is checked for its arrays of indices only. -/
theorem check_eq_ok {M : SparseMatrix ℝ}
    (h : (M.lengthsAgree && M.pointersAscend && M.rowsInside && M.rowsAscend) = true) : M.check = .ok () := by
  have hfinite : M.values.all Scalar.isFinite = true := Array.all_eq_true.mpr fun _ _ => Scalar.isFinite_eq_true _
  simp only [Bool.and_eq_true] at h
  obtain ⟨⟨⟨hlengths, hpointers⟩, hinside⟩, hascend⟩ := h
  rw [SparseMatrix.check, hlengths, hpointers, hinside, hascend, hfinite]
  rfl

theorem validate_curved (a b d : ℝ) : (curved a b d).validate curvedSettings = .ok (2, 2) := by
  have hQ : (curvedCost a b d).check = .ok () := check_eq_ok (by cbv)
  have hA : identityConstraints.check = .ok () := check_eq_ok (by cbv)
  rw [ProblemInput.validate_eq_ok]
  refine ⟨rfl, rfl, rfl, ?_, ?_, validate_curvedSettings, rfl, rfl⟩
  · simp [curved, ProblemInput.checkBounds, inconsistentBound?, List.findIdx?_cons]
  · simp [curved, ProblemInput.checkFormats, ProblemInput.whenPresent, MatrixInput.check, hQ, hA, Except.mapError,
      bind, Except.bind]

theorem cost_curved (a b d : ℝ) : ((curved a b d).normalize 2 2 (10 : ℝ)).1.Q = curvedCost a b d := by
  have hupper : (curvedCost a b d).upperTriangle = curvedCost a b d := by cbv
  exact hupper

theorem symMatrix_curvedCost (a b d : ℝ) : (curvedCost a b d).symMatrix 2 = !![a, b; b, d] := by
  have hfirst : (curvedCost a b d).column 0 = [(0, a)] := rfl
  have hsecond : (curvedCost a b d).column 1 = [(0, b), (1, d)] := rfl
  ext i j
  fin_cases i <;> fin_cases j <;>
    simp [SparseMatrix.symMatrix, SparseMatrix.entry, SparseMatrix.sumAt, hfirst, hsecond]

theorem ordered_curved (a b d : ℝ) : NewtonEngine.PatternOrdered (curvedCost a b d) identityConstraints .kkt := by
  have hpattern : NewtonEngine.PatternOrdered (curvedCost 0 0 0) identityConstraints .kkt := by decide +kernel
  exact .of_samePattern ⟨rfl, rfl, rfl, rfl, rfl⟩ (SparseMatrix.SamePattern.refl _) hpattern

/-- The problem in the units of the solver, which are its own. -/
noncomputable def curvedProgram (a b d limit : ℝ) : ScaledProgram ℝ 2 2 :=
  ScaledProgram.ofProgram ((curved a b d).normalize 2 2 limit).1

/-- The problem is set up as it is, with a start at zero. -/
theorem exists_setup_curved (a b d : ℝ) :
    ∃ (w : Workspace ℝ) (S : Solver ℝ 2 2), (Workspace.setup (curved a b d) curvedSettings 10).1 = .ok w ∧
      w.prepared = some ⟨2, 2, S⟩ ∧ S.settings = curvedSettings ∧ S.program.Q = curvedCost a b d ∧
        S.program = curvedProgram a b d 10 ∧
          S.start.point = Point.start (curvedProgram a b d 10) (Vec.zeros 2) (Vec.zeros 2) := by
  have hvalid := validate_curved a b d
  have hdata := (ProblemInput.valid_of_validate hvalid).formed 10
  rw [cost_curved] at hdata
  obtain ⟨engine, hengine, -⟩ := NewtonEngine.consistent_ofProblem hdata (ordered_curved a b d)
  rw [← cost_curved] at hengine
  obtain ⟨S, hS, hsettings, hprogram, hstart⟩ := Solver.exists_ofProgram_of_unscaled (c := curvedSettings) rfl hengine
  have hcost : S.program.Q = curvedCost a b d := by
    rw [hprogram]
    exact cost_curved a b d
  refine ⟨{ prepared := some ⟨2, 2, S⟩, target := .stdout }, S, ?_, rfl, hsettings, hcost, hprogram, hstart⟩
  unfold Workspace.setup
  simp only [hvalid, hS]

theorem startDirection_two : startDirection ℝ 2 = ![1, 3 / 2] := by
  ext i
  fin_cases i
  · simp [startDirection]
  · norm_num [startDirection]

theorem mulVec_startDirection {a b d lambda : ℝ} (hfirst : a + b * (3 / 2) = lambda)
    (hsecond : b + d * (3 / 2) = lambda * (3 / 2)) :
    (curvedCost a b d).symMatrix 2 *ᵥ startDirection ℝ 2 = lambda • startDirection ℝ 2 := by
  rw [symMatrix_curvedCost, startDirection_two]
  ext i
  fin_cases i
  · simpa [Matrix.mulVec, dotProduct, Fin.sum_univ_two] using hfirst
  · simpa [Matrix.mulVec, dotProduct, Fin.sum_univ_two] using hsecond

theorem form_curvedCost (a b d : ℝ) (x : Fin 2 → ℝ) :
    x ⬝ᵥ (curvedCost a b d).symMatrix 2 *ᵥ x = a * x 0 ^ 2 + 2 * b * (x 0 * x 1) + d * x 1 ^ 2 := by
  rw [symMatrix_curvedCost]
  simp only [dotProduct, Matrix.mulVec, Fin.sum_univ_two, Matrix.of_apply, Matrix.cons_val_zero, Matrix.cons_val_one]
  ring

theorem minProximal_curvedSettings : curvedSettings.minProximal = 1 / 10 ^ 7 := by
  norm_num [curvedSettings, Settings.default, Scalar.ofScientific_eq]

end Sample

/-! ## What the floor guarantees -/

namespace Workspace.Reachable

variable {K : Type} [ExactMachine K] {n m : Nat} {w : Workspace K} {S : Solver K n m}

/-- With the setting for problems that may be nonconvex, no solve takes the proximal weight below the floor that follows
from the estimate, which lies between the smallest eigenvalue and the curvature along the start of the power iteration.
If the estimate has come within the margin of the most negative curvature, the cost with the proximal term is convex at
every iterate. This is so if no curvature is below the negative of the least weight, if the start is an eigenvector of
the smallest eigenvalue, and with a single variable. If the start is an eigenvector, the estimate is its eigenvalue and
nothing is known of the others. -/
theorem floor_outweighs_curvature [Elimination.Rule] (hroots : ExactRoots K) (h : Reachable w)
    (hw : w.prepared = some ⟨n, m, S⟩) (hn : n ≠ 0) (hnonconvex : S.settings.nonconvex = true) :
    S.rhoFloor = max S.settings.minProximal (11 / 10 * -minEigenvalue S.program.Q n) ∧
      (∀ a, CurvesAbove S.program.Q n a → a ≤ minEigenvalue S.program.Q n) ∧
      minEigenvalue S.program.Q n * (startDirection K n ⬝ᵥ startDirection K n) ≤
        startDirection K n ⬝ᵥ S.program.Q.symMatrix n *ᵥ startDirection K n ∧
      (∀ a, S.program.Q.symMatrix n *ᵥ startDirection K n = a • startDirection K n →
        minEigenvalue S.program.Q n = a) ∧
      S.start.entry S.program S.settings = some S.start ∧
      (∀ expired k r, Run.Reaches S.program S.settings expired S.start k r →
        S.rhoFloor ≤ r.newton.penalty.rho ∧
          S.rhoFloor ≤ (r.pass S.program S.settings expired).1.newton.penalty.rho) ∧
      ∀ a, CurvesAbove S.program.Q n a →
        -S.settings.minProximal ≤ a ∨ 11 / 10 * minEigenvalue S.program.Q n ≤ a ∨
            S.program.Q.symMatrix n *ᵥ startDirection K n = a • startDirection K n ∨ n = 1 →
          PosSemidef (proximal S.program.Q n S.rhoFloor) ∧
            ∀ expired k r, Run.Reaches S.program S.settings expired S.start k r →
              PosSemidef (proximal S.program.Q n r.newton.penalty.rho) ∧
                PosSemidef (proximal S.program.Q n (r.pass S.program S.settings expired).1.newton.penalty.rho) := by
  obtain ⟨hdata, hc, -⟩ := h.maintained _ hw
  have hlambda : S.lambdaMin = some (minEigenvalue S.program.Q n) := by
    have hestimated : S.Estimated := h.estimated _ hw
    rw [hestimated, hnonconvex, if_pos rfl]
  have hfloor := Solver.rhoFloor_eq hc hlambda
  rw [Solver.floorMargin_eq] at hfloor
  have hweights {expired : Nat → Bool} {k : Nat} {r : Run K n m}
      (hr : Run.Reaches S.program S.settings expired S.start k r) := Solver.rhoFloor_le hc hr
  refine ⟨hfloor, fun a ha => ?_, minEigenvalue_le hroots hdata.upper hdata.cost_cols hn,
    fun a => minEigenvalue_of_eigenvector hroots hdata.upper hdata.cost_cols hn, ?_, fun _ _ _ => hweights,
    fun a ha hle => ?_⟩
  · exact le_minEigenvalue hroots hdata.upper hdata.cost_cols hn (V := ⊤) (fun _ _ => trivial) trivial fun x _ => ha x
  · rw [Run.entry, if_pos hnonconvex]
  · have hestimated {b : K} (hb : minEigenvalue S.program.Q n = b) : -S.rhoFloor ≤ b := by
      rw [hfloor, hb]
      rcases le_total 0 b with hnonneg | hneg
      · linarith [le_max_left S.settings.minProximal (11 / 10 * -b), Settings.minProximal_pos hc]
      · linarith [le_max_right S.settings.minProximal (11 / 10 * -b)]
    have hbelow : CurvesAbove S.program.Q n (-S.rhoFloor) := by
      rcases hle with hmin | hmargin | heigenvector | rfl
      · refine ha.mono ?_
        rw [hfloor]
        linarith [le_max_left S.settings.minProximal (11 / 10 * -minEigenvalue S.program.Q n)]
      · refine ha.mono ?_
        rw [hfloor]
        linarith [le_max_right S.settings.minProximal (11 / 10 * -minEigenvalue S.program.Q n)]
      · exact ha.mono (hestimated (minEigenvalue_of_eigenvector hroots hdata.upper hdata.cost_cols hn heigenvector))
      · exact (curvesAbove_single _).mono
          (hestimated (minEigenvalue_of_eigenvector hroots hdata.upper hdata.cost_cols hn (mulVec_single _ _)))
    have hconvex {rho : K} (hrho : S.rhoFloor ≤ rho) : PosSemidef (proximal S.program.Q n rho) :=
      posSemidef_proximal_iff.mpr (hbelow.mono (neg_le_neg hrho))
    exact ⟨hconvex le_rfl, fun expired k r hr => ⟨hconvex (hweights hr).1, hconvex (hweights hr).2⟩⟩

/-- A cost whose most negative curvature lies along the start of the power iteration. -/
theorem floor_outweighs_curvature_along_start :
    ∃ (w : Workspace ℝ) (S : Solver ℝ 2 2),
      (Workspace.setup (Sample.curved (-4) (-6) (-9)) Sample.curvedSettings 10).1 = .ok w ∧
        w.prepared = some ⟨2, 2, S⟩ ∧ minEigenvalue S.program.Q 2 = -13 ∧ S.rhoFloor = 143 / 10 ∧
          PosSemidef (proximal S.program.Q 2 S.rhoFloor) ∧
            ∀ expired k r, Run.Reaches S.program S.settings expired S.start k r →
              PosSemidef (proximal S.program.Q 2 r.newton.penalty.rho) := by
  obtain ⟨w, S, hsetup, hw, hsettings, hcost, -⟩ := Sample.exists_setup_curved (-4) (-6) (-9)
  obtain ⟨hfloor, -, -, heigenvector, -, -, hconvex⟩ :=
    floor_outweighs_curvature Sample.exactRoots_real (.setup hsetup) hw two_ne_zero (by rw [hsettings]; rfl)
  have hstart : S.program.Q.symMatrix 2 *ᵥ startDirection ℝ 2 = (-13 : ℝ) • startDirection ℝ 2 := by
    rw [hcost]
    exact Sample.mulVec_startDirection (by norm_num) (by norm_num)
  have hestimate : minEigenvalue S.program.Q 2 = -13 := heigenvector _ hstart
  have hbelow : CurvesAbove S.program.Q 2 (-13) := by
    intro x
    rw [hcost, Sample.form_curvedCost]
    simp only [dotProduct, Fin.sum_univ_two]
    nlinarith [sq_nonneg (3 * x 0 - 2 * x 1)]
  rw [hestimate, hsettings, Sample.minProximal_curvedSettings] at hfloor
  obtain ⟨hfirst, hruns⟩ := hconvex _ hbelow (.inr (.inr (.inl hstart)))
  refine ⟨w, S, hsetup, hw, hestimate, ?_, hfirst, fun expired k r hr => (hruns expired k r hr).1⟩
  rw [hfloor, max_eq_right]
  · norm_num
  · norm_num

/-- A cost that falls along `(3, -2)`, where its curvature is -13, while the power iteration starts along `(2, 3)`, an
eigenvector without curvature. The floor stays at its least value, and neither it nor the first weight outweighs the
curvature. -/
theorem curvature_overlooked :
    ∃ (w : Workspace ℝ) (S : Solver ℝ 2 2),
      (Workspace.setup (Sample.curved (-9) 6 (-4)) Sample.curvedSettings 10).1 = .ok w ∧
        w.prepared = some ⟨2, 2, S⟩ ∧ S.settings.nonconvex = true ∧ minEigenvalue S.program.Q 2 = 0 ∧
          ¬PosSemidef (proximal S.program.Q 2 S.rhoFloor) ∧
            ¬PosSemidef (proximal S.program.Q 2 S.start.newton.penalty.rho) := by
  obtain ⟨w, S, hsetup, hw, hsettings, hcost, -⟩ := Sample.exists_setup_curved (-9) 6 (-4)
  have hnonconvex : S.settings.nonconvex = true := by
    rw [hsettings]
    rfl
  obtain ⟨hdata, hc, -⟩ := (Reachable.setup hsetup).maintained _ hw
  have hestimate : minEigenvalue S.program.Q 2 = 0 := by
    refine minEigenvalue_of_eigenvector Sample.exactRoots_real hdata.upper hdata.cost_cols two_ne_zero ?_
    rw [hcost]
    exact Sample.mulVec_startDirection (by norm_num) (by norm_num)
  have hlambda : S.lambdaMin = some 0 := by
    have hestimated : S.Estimated := (Reachable.setup hsetup).estimated _ hw
    rw [hestimated, hnonconvex, if_pos rfl, hestimate]
  have hfloor : S.rhoFloor = 1 / 10 ^ 7 := by
    rw [Solver.rhoFloor_eq hc hlambda, hsettings, Sample.minProximal_curvedSettings]
    norm_num
  have hweight : S.start.newton.penalty.rho = 1 / 10 := by
    have henabled : S.settings.proximalEnable = true ∧ S.settings.initialProximal = 1 / 10 := by
      rw [hsettings]
      refine ⟨rfl, ?_⟩
      norm_num [Sample.curvedSettings, Settings.default, Scalar.ofScientific_eq]
    rw [Solver.start, Penalty.initial, if_pos henabled.1, Scalar.max_eq_max, henabled.2, hfloor]
    norm_num
  have hcurved {rho : ℝ} (hrho : rho < 13) : ¬PosSemidef (proximal S.program.Q 2 rho) := by
    intro h
    have hform := h ![3, -2]
    rw [proximal_form, hcost, Sample.form_curvedCost] at hform
    simp only [dotProduct, Fin.sum_univ_two, Matrix.cons_val_zero, Matrix.cons_val_one] at hform
    linarith
  refine ⟨w, S, hsetup, hw, hnonconvex, hestimate, hcurved ?_, hcurved ?_⟩
  · rw [hfloor]
    norm_num
  · rw [hweight]
    norm_num

end Workspace.Reachable
end AugLag
