import AugLag.Proofs.Solver.Duality
import AugLag.Proofs.Workspace.Stored

/-!
# Statistics of reported solutions

Whatever ends a solve, the statistics of a solution that is reported are those of this solution and of the problem as it
was posed. The gap between its objectives vanishes with its residuals.
-/

namespace AugLag

variable {K : Type} {n m : Nat}

/-! ## A sample session -/

namespace Sample

/-- The sample, stopped after one step from a point outside of the bounds. -/
def stopped : Workspace ℚ :=
  (((opened lopsided).updateSettings { settings with maxIter := 1 }).1.warmStart (some #[0, 1 / 2]) (some #[-8, 8])).1

def reportedMultipliers (w : Workspace ℚ) : Option (Array ℚ) :=
  (w.solve fun _ => 0).toOption.map fun s => s.results.y

theorem reported_eq_of_multipliers {w : Workspace ℚ} {y : Array ℚ} (h : reportedMultipliers w = some y)
    {solution : Solution ℚ} (hsolve : w.solve (fun _ => 0) = .ok solution) : solution.results.y = y := by
  unfold reportedMultipliers at h
  rw [hsolve] at h
  exact Option.some.inj h

/-- The calls are accepted, and after one step only the first row pushes, against its lower bound. -/
theorem stopped_checked :
    ((opened lopsided).updateSettings { settings with maxIter := 1 }).2 = .ok () ∧
      (((opened lopsided).updateSettings { settings with maxIter := 1 }).1.warmStart (some #[0, 1 / 2])
        (some #[-8, 8])).2 = .ok () ∧
        status stopped = some .maxIterReached ∧
          reportedMultipliers stopped = some (Array.ofFn ![-129899612 / 25254409, 0]) ∧
            (lopsided.posed 2 2).PushesPresent 10 ![-129899612 / 25254409, 0] := by
  decide +kernel

theorem session_stopped : Session 10 stopped (lopsided.posed 2 2) :=
  .warmStart (.updateSettings (.setup setup_lopsided dims_lopsided) stopped_checked.1) stopped_checked.2.1

end Sample

/-! ## What is reported -/

namespace Session

variable [ExactMachine K] {limit : K} {w : Workspace K} {P : PosedProblem K n m} {S : Solver K n m}
  {clock : Nat → Float} {solution : Solution K}

/-- The statistics that are reported with a solution are its objectives and residuals in the units of the posed
problem, with `z` as the solve has measured it. If no multiplier pushes against an absent bound, the gap is what the
residuals allow. -/
theorem reported_statistics [Elimination.Rule] (h : Session limit w P) (hlimit : 0 < limit)
    (hw : w.prepared = some ⟨n, m, S⟩) (hsolve : w.solve clock = .ok solution)
    (hstatus : solution.results.info.status.hasSolution = true) :
    ∃ (r : Run K n m) (x : Fin n → K) (y : Fin m → K),
      (S.run fun updates => S.settings.timeLimit < clock updates).2.run = r ∧ r.Measured S.program ∧
        solution.results.x = Array.ofFn x ∧ solution.results.y = Array.ofFn y ∧
          P.Accounts limit solution.results.info x y (r.reportedActivity S.program) := by
  have hS := h.serves hlimit hw
  obtain ⟨-, hresults⟩ := Workspace.solve_eq hw hsolve
  rw [hresults] at hstatus ⊢
  obtain ⟨hcoherent, hmeasured, hrecorded⟩ := Solver.measured_of_hasSolution hS.scaling hS.settings hS.coherent_start
    (fun updates => S.settings.timeLimit < clock updates) hstatus
  obtain ⟨hx, hy⟩ := Outcome.results_solution _ S.program hstatus
  exact ⟨_, _, _, rfl, hmeasured, hx, hy, hmeasured.accounts hcoherent hrecorded hS.scaling hstatus⟩

/-- The sample is stopped far from its solution. -/
theorem reported_statistics_stopped :
    ∃ (solution : Solution ℚ) (x : Fin 2 → ℚ) (y z : Fin 2 → ℚ), Sample.stopped.solve (fun _ => 0) = .ok solution ∧
      solution.results.info.status = .maxIterReached ∧ solution.results.x = Array.ofFn x ∧
        solution.results.y = Array.ofFn y ∧ (Sample.lopsided.posed 2 2).PushesPresent 10 y ∧
          (Sample.lopsided.posed 2 2).Accounts 10 solution.results.info x y z := by
  obtain ⟨-, -, hstatus, hmultipliers, hpush⟩ := Sample.stopped_checked
  obtain ⟨S, hw, -⟩ := Sample.session_stopped.exists_serves (by norm_num)
  obtain ⟨solution, hsolve, hended⟩ := Sample.exists_solution Sample.stopped .maxIterReached hstatus
  obtain ⟨r, x, y, -, -, hx, hy, haccounts⟩ :=
    reported_statistics Sample.session_stopped (by norm_num) hw hsolve (by rw [hended]; rfl)
  have hvalue := Sample.reported_eq_of_multipliers hmultipliers hsolve
  obtain rfl : y = ![-129899612 / 25254409, 0] :=
    List.ofFn_injective (by rw [← Array.toList_ofFn, ← Array.toList_ofFn, ← hy, hvalue])
  exact ⟨solution, x, _, _, hsolve, hended, hx, hy, hpush, haccounts⟩

end Session
end AugLag
