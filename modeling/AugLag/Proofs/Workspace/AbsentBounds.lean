import AugLag.Proofs.Solver.AbsentBounds
import AugLag.Proofs.Workspace.Duality

/-!
# Absent bounds of sessions

How far a solve treats an absent bound as absent. Line search, the tests for infeasibility and the dual objective always
do. Evaluations do as long as `A x + y / σ` stays within the limit, and then the signs of the reported multipliers are
those of the bounds that there are.
-/

namespace AugLag

variable {K : Type} {n m : Nat}

/-! ## A sample -/

namespace Sample

/-- One variable without a bound within the limit, with a cost that is least at twelve. -/
def floating : ProblemInput ℚ :=
  { Q := some (.dense 1 1 #[1]), q := some #[-12], A := some (.dense 1 1 #[1]), bmin := some #[-20], bmax := some #[20] }

/-- The sample at the limit. -/
def stranded : Workspace ℚ := ((opened floating).warmStart (some #[10]) (some #[2])).1

/-- The first row of what a workspace holds is active at the start of a solve. -/
def startsActive (w : Workspace ℚ) : Bool :=
  match w.prepared with
  | some ⟨_, 1, S⟩ => (S.start.measure S.program).evaluation.active.get 0
  | _ => false

/-- The sample is set up and started, and a solve of it reports a multiplier. -/
theorem stranded_checked :
    (Workspace.setup floating settings 10).1.toBool = true ∧ (opened floating).dims = some (1, 1) ∧
      ((opened floating).warmStart (some #[10]) (some #[2])).2 = .ok () ∧ startsActive stranded = true ∧
      status stranded = some .solved ∧ reportedMultipliers stranded = some #[2] := by
  decide +kernel

theorem session_stranded : Session 10 stranded (floating.posed 1 1) := by
  obtain ⟨hsetup, hdims, hstart, -⟩ := stranded_checked
  exact .warmStart (session_opened floating hsetup hdims) hstart

theorem unbounded_floating : ¬(floating.posed 1 1).HasLower 10 0 ∧ ¬(floating.posed 1 1).HasUpper 10 0 := by
  decide

theorem active_of_startsActive {w : Workspace ℚ} {n : Nat} {S : Solver ℚ n 1} (hw : w.prepared = some ⟨n, 1, S⟩)
    (h : startsActive w = true) : (S.start.measure S.program).evaluation.active.get 0 = true := by
  rw [startsActive, hw] at h
  exact h

end Sample

namespace Session

variable [ExactMachine K] {limit : K} {w : Workspace K} {P : PosedProblem K n m} {S : Solver K n m}

/-- What stands in the place of an absent bound is read by evaluations only. In every evaluation of a solve a row goes by
its present bounds if and only if its value is not beyond an absent one; beyond it the row is active and pushed back to
the limit. A reported multiplier pushes against an absent bound if and only if its row was last found beyond it. -/
theorem absent_bounds [Elimination.Rule] (h : Session limit w P) (hlimit : 0 < limit)
    (hw : w.prepared = some ⟨n, m, S⟩) :
    (∀ lower upper, S.program.SamePresent (S.program.withAbsent lower upper)) ∧
    (∀ (expired : Nat → Bool) (r : Run K n m), r = S.start ∨ S.start.Begins S.program S.settings expired r → ∀ i,
      ((r.measure S.program).evaluation.GoesByPresent S.program r.newton.penalty.sigma.get r.shifted i ↔
          ¬S.program.BelowAbsent (r.shifted i) i ∧ ¬S.program.AboveAbsent (r.shifted i) i) ∧
        (S.program.BelowAbsent (r.shifted i) i ∨ S.program.AboveAbsent (r.shifted i) i →
          (r.measure S.program).evaluation.PushedBack S.program i)) ∧
    ∀ (clock : Nat → Float) (solution : Solution K), w.solve clock = .ok solution →
      solution.results.info.status.hasSolution = true →
        ∃ v y : Fin m → K,
          (S.run fun updates => S.settings.timeLimit < clock updates).2.run.Projects S.program v ∧
            solution.results.y = Array.ofFn y ∧ ∀ i,
              (¬P.HasUpper limit i → (0 < y i ↔ S.program.AboveAbsent (v i) i)) ∧
                (¬P.HasLower limit i → (y i < 0 ↔ S.program.BelowAbsent (v i) i)) ∧
                  (¬P.HasLower limit i → ¬P.HasUpper limit i → (y i = 0 ↔ |v i| ≤ limit)) := by
  have hS := h.serves hlimit hw
  refine ⟨S.program.samePresent_withAbsent, fun expired r hr i => ?_, fun clock solution hsolve hstatus => ?_⟩
  · have hcoherent : r.Coherent S.program := by
      rcases hr with rfl | hbegins
      · exact hS.coherent_start
      · exact (hbegins.coherent hS.scaling.cost_upper hS.scaling.cost_cols hS.settings hS.coherent_start rfl).1
    exact hcoherent.measure_row hS.scaling hlimit i
  · obtain ⟨-, hresults⟩ := Workspace.solve_eq hw hsolve
    rw [hresults] at hstatus ⊢
    obtain ⟨-, hmeasured, -⟩ := Solver.measured_of_hasSolution hS.scaling hS.settings hS.coherent_start
      (fun updates => S.settings.timeLimit < clock updates) hstatus
    obtain ⟨v, hv⟩ := hmeasured.exists_projects
    refine ⟨v, _, hv, (Outcome.results_solution _ S.program hstatus).2, fun i => ?_⟩
    obtain ⟨hpos, hneg⟩ := hv.reportedDual_signs hS.scaling hlimit i
    exact ⟨hpos, hneg, fun hlower hupper => hv.reportedDual_eq_zero_iff hS.scaling hlimit hlower hupper⟩

/-- The row of the sample is pushed back to the limit at the start, and its last value was above it. -/
theorem absent_bounds_stranded :
    ∃ (S : Solver ℚ 1 1) (solution : Solution ℚ) (v : Fin 1 → ℚ),
      Sample.stranded.prepared = some ⟨1, 1, S⟩ ∧ (S.start.measure S.program).evaluation.PushedBack S.program 0 ∧
        Sample.stranded.solve (fun _ => 0) = .ok solution ∧
          (S.run fun updates => S.settings.timeLimit < (fun _ => 0) updates).2.run.Projects S.program v ∧
            S.program.AboveAbsent (v 0) 0 := by
  obtain ⟨S, hw, hS⟩ := Sample.session_stranded.exists_serves (by norm_num)
  obtain ⟨hlower, hupper⟩ := Sample.unbounded_floating
  obtain ⟨-, -, -, hstarts, hsolved, hreports⟩ := Sample.stranded_checked
  obtain ⟨-, hrows, hreported⟩ := absent_bounds Sample.session_stranded (by norm_num) hw
  obtain ⟨hpresent, hback⟩ := hrows (fun _ => false) S.start (.inl rfl) 0
  have hactive := Sample.active_of_startsActive hw hstarts
  have hbeyond : S.program.BelowAbsent (S.start.shifted 0) 0 ∨ S.program.AboveAbsent (S.start.shifted 0) 0 := by
    by_contra hnot
    have hrow := (hpresent.mpr (not_or.mp hnot)).active
    rw [hactive, eq_comm, decide_eq_true_eq, ScaledProgram.OutsidePresent, hS.scaling.lowerFinite_eq,
      hS.scaling.upperFinite_eq, decide_eq_false hlower, decide_eq_false hupper] at hrow
    simp at hrow
  obtain ⟨solution, hsolve, hstatus⟩ := Sample.exists_solution Sample.stranded .solved hsolved
  obtain ⟨v, y, hv, hy, hsigns⟩ := hreported (fun _ => 0) solution hsolve (by rw [hstatus]; rfl)
  have hvalue : solution.results.y = Array.ofFn ![2] := Sample.reported_eq_of_multipliers hreports hsolve
  obtain rfl : y = ![2] :=
    List.ofFn_injective (by rw [← Array.toList_ofFn, ← Array.toList_ofFn, ← hy, hvalue])
  have hpushes : (0 : ℚ) < ![2] (0 : Fin 1) := by norm_num
  exact ⟨S, solution, v, hw, hback hbeyond, hsolve, hv, ((hsigns 0).1 hupper).mp hpushes⟩

/-- At the limit a solve of the sample ends as solved, with a multiplier on a row that has no bound. The cost is least
elsewhere. -/
theorem absent_bound_pushes :
    Session 10 Sample.stranded (Sample.floating.posed 1 1) ∧
      (¬(Sample.floating.posed 1 1).HasLower 10 0 ∧ ¬(Sample.floating.posed 1 1).HasUpper 10 0) ∧
        Sample.status Sample.stranded = some .solved ∧ Sample.reportedMultipliers Sample.stranded = some #[2] := by
  obtain ⟨-, -, -, -, hreported⟩ := Sample.stranded_checked
  exact ⟨Sample.session_stranded, Sample.unbounded_floating, hreported⟩

end Session
end AugLag
