import AugLag.Proofs.Workspace.Verdict

/-!
# What a workspace stores

Whatever was accepted since the setup, the data that a workspace holds are exactly the scaling of its present problem,
and the problem can be taken out of them again.
-/

namespace AugLag

/-! ## A sample ledger -/

namespace Sample

/-- Two rows in two variables. The second row has no lower bound. -/
def lopsided : ProblemInput ℚ :=
  { Q := some (.dense 2 2 #[4, 1, 1, 9]), q := some #[-2, 1], A := some (.dense 2 2 #[1, 0, 2, 16])
    bmin := some #[0, -20], bmax := some #[3, 5] }

/-- A workspace after a solve. -/
def solved (w : Workspace ℚ) : Workspace ℚ :=
  match w.solve fun _ => 0 with
  | .ok solution => solution.workspace
  | .error _ => w

theorem ledger_solved {n m : Nat} {w : Workspace ℚ} {problem : ProblemInput ℚ} (h : Ledger 10 n m w problem) :
    Ledger 10 n m (solved w) problem := by
  unfold solved
  split
  · next hsolve => exact .solve h hsolve
  · exact h

theorem updateBounds_solved (w : Workspace ℚ) (lower upper : Option (Array ℚ)) :
    ((solved w).updateBounds lower upper).2 = (w.updateBounds lower upper).2 := by
  unfold solved
  split
  · next solution hsolve =>
      cases hw : w.prepared with
      | none =>
          unfold Workspace.solve Workspace.solveInto at hsolve
          rw [hw] at hsolve
          cases hsolve
      | some p => exact Workspace.updateBounds_outcome_congr hw (Workspace.solve_eq hw hsolve).1 rfl lower upper
  · rfl

/-- After a first solve the upper bounds were replaced, then the cost. -/
def revised : Workspace ℚ :=
  (((solved (opened lopsided)).updateBounds none (some #[30, 4])).1.updateCost #[1, -1]).1

/-- The sample as it is opened, and bounds that it accepts. -/
def openedLopsided : { w : Workspace ℚ // (Workspace.setup lopsided settings 10).1 = .ok w ∧ w.dims = some (2, 2) ∧
    (w.updateBounds none (some #[30, 4])).2 = .ok () } :=
  -- the setup is evaluated once for all three facts
  have h : (Workspace.setup lopsided settings 10).1.toBool = true ∧ (opened lopsided).dims = some (2, 2) ∧
      ((opened lopsided).updateBounds none (some #[30, 4])).2 = .ok () := by
    decide +kernel
  ⟨opened lopsided, setup_eq_opened lopsided h.1, h.2⟩

theorem setup_lopsided : (Workspace.setup lopsided settings 10).1 = .ok (opened lopsided) := openedLopsided.2.1

theorem dims_lopsided : (opened lopsided).dims = some (2, 2) := openedLopsided.2.2.1

theorem finiteVector_two (what : ProblemPart) (a b : ℚ) : finiteVector what 2 #[a, b] = .ok #v[a, b] := by
  simp [finiteVector, Vec.ofArray?, Vec.isFinite]

/-- Bounds that the sample accepts are also accepted after a solve. -/
theorem ledger_changed {lower upper : Option (Array ℚ)} {a b : ℚ}
    (hbounds : ((opened lopsided).updateBounds lower upper).2 = .ok ()) :
    Ledger 10 2 2 (((solved (opened lopsided)).updateBounds lower upper).1.updateCost #[a, b]).1
      ((lopsided.withBounds lower upper).withCost #[a, b]) := by
  -- the solve is not carried out, since it keeps the program
  rw [← updateBounds_solved] at hbounds
  have hledger := Ledger.updateBounds (ledger_solved (.setup setup_lopsided dims_lopsided)) hbounds
  obtain ⟨S, hw, -⟩ := hledger.exists_holds (by norm_num)
  refine hledger.updateCost ?_
  rw [Workspace.updateCost_outcome hw, finiteVector_two]
  rfl

theorem ledger_revised :
    Ledger 10 2 2 revised ((lopsided.withBounds none (some #[30, 4])).withCost #[1, -1]) :=
  ledger_changed openedLopsided.2.2.2

end Sample

/-! ## What is stored -/

namespace Ledger

variable {K : Type} [ExactMachine K] {n m : Nat} {limit : K} {w : Workspace K} {problem : ProblemInput K}

/-- After any accepted calls the stored data are the scaling of the present problem, slot by slot, and unscaling them
gives the problem back. -/
theorem stored_exactly [Elimination.Rule] (h : Ledger limit n m w problem) (hlimit : 0 < limit) :
    ∃ S : Solver K n m, w.prepared = some ⟨n, m, S⟩ ∧
      problem.Describes limit (problem.normalize n m limit).1 ∧
        S.program.Stores (problem.normalize n m limit).1 ∧
          S.program.unscaled = (problem.normalize n m limit).1 := by
  obtain ⟨S, hw, hS⟩ := h.exists_holds hlimit
  exact ⟨S, hw, hS.describes, hS.stores, hS.stores.unscaled_eq hS.formed (problem.clamped_normalize n m hlimit)⟩

/-- In the sample the absent bounds are at the limit, and the old lower bounds come back unscaled. -/
theorem stored_exactly_revised :
    ∃ S : Solver ℚ 2 2, Sample.revised.prepared = some ⟨2, 2, S⟩ ∧
      S.program.Stores
        (((Sample.lopsided.withBounds none (some #[30, 4])).withCost #[1, -1]).normalize 2 2 10).1 ∧
      S.program.unscaled.bmin = #v[0, -10] ∧ S.program.unscaled.bmax = #v[10, 4] ∧ S.program.unscaled.q = #v[1, -1] := by
  obtain ⟨S, hw, -, hstores, hunscaled⟩ := stored_exactly Sample.ledger_revised (by norm_num)
  refine ⟨S, hw, hstores, ?_⟩
  rw [hunscaled]
  decide +kernel

end Ledger
end AugLag
