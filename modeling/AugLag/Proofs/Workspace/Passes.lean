import AugLag.Proofs.Solver.Passes
import AugLag.Proofs.Workspace.Replay

/-!
# Limits of a solve

Whatever calls a workspace has been through, a solve ends by itself within the limits of the settings, even where the
numbers have become infinite or undefined.
-/

namespace AugLag

/-! ## Solvers -/

namespace Solver

variable {T : Type} [Scalar T] {n m : Nat} {S : Solver T n m}

/-- A run begins its passes with all counters at zero, and one of the passes ends it before the number of passes that the
iteration is given runs out. -/
theorem exists_passes (hc : S.settings.validate = .ok ()) {r₀ : Run T n m}
    (h : S.start.entry S.program S.settings = some r₀) (expired : Nat → Bool) :
    ∃ passes, passes ≤ Run.passLimit S.settings ∧
      Run.Ends S.program S.settings expired r₀ passes (S.start.complete S.program S.settings expired).1
        (S.start.complete S.program S.settings expired).2.1 := by
  obtain ⟨hrun, hstatus⟩ := Run.complete_of_entry h expired
  rw [hrun, hstatus]
  exact Run.exists_ends (counted_entry hc h) (Run.passLimit S.settings) .start (Nat.le_add_left _ _)

/-- At the end of a run the counters are within their limits, and a run that ends for its number of steps or updates has
reached one of these limits. -/
theorem bounded_complete (hc : S.settings.validate = .ok ()) (expired : Nat → Bool) :
    (S.start.complete S.program S.settings expired).1.Bounded S.settings ∧
      ((S.start.complete S.program S.settings expired).2.1 = .maxIterReached →
        (S.start.complete S.program S.settings expired).1.info.iter = S.settings.maxIter ∨
          (S.start.complete S.program S.settings expired).1.info.iterOut = S.settings.maxOuterIter) := by
  cases hentry : S.start.entry S.program S.settings with
  | none =>
      obtain ⟨hinfo, hin, hstatus⟩ := Run.complete_of_no_entry hentry expired
      exact ⟨(Run.counted_zero hc hinfo hin).bounded, fun heq => by rw [hstatus] at heq; cases heq⟩
  | some r₀ =>
      obtain ⟨passes, -, hends⟩ := exists_passes hc hentry expired
      exact hends.bounded (counted_entry hc hentry)

end Solver

/-! ## Workspaces -/

namespace Workspace.Reachable

variable {T : Type} [MachineScalar T] {n m : Nat} {w : Workspace T} {S : Solver T n m}

/-- The passes of a solve end within the limits on Newton steps and multiplier updates. Before every pass and at the end
the counters are within their limits, and only a limit that is reached counts as reached. A Newton step updates its
engine at most once more than it may retry. -/
theorem solve_within_limits [Elimination.Rule] (h : Reachable w) (hw : w.prepared = some ⟨n, m, S⟩)
    (expired : Nat → Bool) :
    (∀ r₀, S.start.entry S.program S.settings = some r₀ →
      (∃ passes, passes ≤ S.settings.maxIter + S.settings.maxOuterIter ∧
        Run.Ends S.program S.settings expired r₀ passes (S.start.complete S.program S.settings expired).1
          (S.start.complete S.program S.settings expired).2.1) ∧
      ∀ k r, Run.Reaches S.program S.settings expired r₀ k r →
        k < S.settings.maxIter + S.settings.maxOuterIter ∧ r.Bounded S.settings) ∧
    (S.start.entry S.program S.settings = none → (S.start.complete S.program S.settings expired).2.1 = .nonConvex) ∧
    (S.start.complete S.program S.settings expired).1.Bounded S.settings ∧
    ((S.start.complete S.program S.settings expired).2.1 = .maxIterReached →
      (S.start.complete S.program S.settings expired).1.info.iter = S.settings.maxIter ∨
        (S.start.complete S.program S.settings expired).1.info.iterOut = S.settings.maxOuterIter) ∧
    ∀ (s : NewtonState T n m) (p : Point T n m) (e : Evaluation T n m),
      ∃ k s', k ≤ S.settings.maxFactorizationRetries + 1 ∧
        NewtonState.Factors S.program e.active S.settings k s s'
          ((s.step S.program p e S.settings).2.1.map fun _ => ()) ∧
        (s.step S.program p e S.settings).1.engine = s'.engine := by
  have hc : S.settings.validate = .ok () := (h.maintained _ hw).settings
  obtain ⟨hbounded, hlimit⟩ := Solver.bounded_complete hc expired
  refine ⟨fun r₀ hentry => ⟨Solver.exists_passes hc hentry expired, fun k r hreaches => ?_⟩,
    fun hnone => (Run.complete_of_no_entry hnone expired).2.2, hbounded, hlimit,
    fun s p e => s.exists_factors_step p e⟩
  have hcounted := hreaches.counted (Solver.counted_entry hc hentry)
  exact ⟨hcounted.lt_passLimit, hcounted.bounded⟩

end Workspace.Reachable

namespace Sample

/-- The sample with bounds when its solve is given one Newton step. -/
def hurried : Workspace ℚ := ((opened bounded).updateSettings { settings with maxIter := 1 }).1

/-- How the passes of an untimed solve end. -/
def ending (w : Workspace ℚ) : Option Status :=
  w.prepared.map fun p => (p.solver.start.complete p.solver.program p.solver.settings fun _ => false).2.1

theorem reachable_hurried : Workspace.Reachable hurried :=
  .updateSettings _ (.setup (setup_eq_opened bounded (by decide +kernel)))

end Sample

namespace Workspace.Reachable

theorem solve_within_limits_hurried :
    ∃ (S : Solver ℚ 1 1) (r₀ : Run ℚ 1 1), Sample.hurried.prepared = some ⟨1, 1, S⟩ ∧
      S.start.entry S.program S.settings = some r₀ ∧
        (∃ passes, passes ≤ S.settings.maxIter + S.settings.maxOuterIter ∧
          Run.Ends S.program S.settings (fun _ => false) r₀ passes
            (S.start.complete S.program S.settings fun _ => false).1 .maxIterReached) ∧
        ((S.start.complete S.program S.settings fun _ => false).1.info.iter = S.settings.maxIter ∨
          (S.start.complete S.program S.settings fun _ => false).1.info.iterOut = S.settings.maxOuterIter) := by
  have hending : Sample.ending Sample.hurried = some .maxIterReached ∧ Sample.hurried.dims = some (1, 1) := by
    decide +kernel
  unfold Sample.ending dims at hending
  obtain ⟨⟨p, hw, hstatus⟩, hdims⟩ := And.imp_left Option.map_eq_some_iff.mp hending
  obtain ⟨n, m, S⟩ := p
  rw [hw] at hdims
  cases hdims
  obtain ⟨hpasses, hnone, -, hlimit, -⟩ := solve_within_limits Sample.reachable_hurried hw fun _ => false
  cases hentry : S.start.entry S.program S.settings with
  | none =>
      have hstatus' := hnone hentry
      rw [hstatus] at hstatus'
      cases hstatus'
  | some r₀ =>
      obtain ⟨passes, hle, hends⟩ := (hpasses r₀ hentry).1
      rw [hstatus] at hends
      exact ⟨S, r₀, hw, hentry, ⟨passes, hle, hends⟩, hlimit hstatus⟩

end Workspace.Reachable
end AugLag
