import AugLag.Proofs.Checks
import AugLag.Proofs.Scatter
import AugLag.Proofs.Settings
import AugLag.Workspace.Solve
import AugLag.Workspace.Update

/-!
# Calls of a workspace

What single calls do to the solver that a workspace holds, and what they return. Nothing here depends on how the scalars
calculate.
-/

namespace AugLag

section Solvers

variable {T : Type} [Scalar T] {n m : Nat}

/-! ## Solvers -/

/-- What a new starting point leaves as it is. -/
theorem Solver.warmStart_keeps (S : Solver T n m) (x y : Option (Array T)) :
    (S.warmStart x y).1.program = S.program ∧ (S.warmStart x y).1.settings = S.settings ∧
      (S.warmStart x y).1.engine = S.engine ∧ (S.warmStart x y).1.lambdaMin = S.lambdaMin := by
  unfold Solver.warmStart
  simp only
  split
  · exact ⟨rfl, rfl, rfl, rfl⟩
  · exact ⟨rfl, rfl, rfl, rfl⟩
  · exact ⟨rfl, rfl, rfl, rfl⟩

/-- A new starting point depends on the program and on the old starting point only. -/
theorem Solver.warmStart_congr {S S' : Solver T n m} (hprogram : S'.program = S.program)
    (hx : S'.xStart = S.xStart) (hy : S'.yStart = S.yStart) (x y : Option (Array T)) :
    (S'.warmStart x y).2 = (S.warmStart x y).2 ∧ (S'.warmStart x y).1.xStart = (S.warmStart x y).1.xStart ∧
      (S'.warmStart x y).1.yStart = (S.warmStart x y).1.yStart := by
  unfold Solver.warmStart
  simp only [hprogram]
  split
  · exact ⟨rfl, hx, hy⟩
  · exact ⟨rfl, rfl, hy⟩
  · exact ⟨rfl, rfl, rfl⟩

namespace Solver

variable {S : Solver T n m}

/-- The bounds that are given, or the bounds that stay. -/
def boundsOr (what : ProblemPart) (b : Option (Array T)) (stay : Vector T m) : Except UpdateError (Vector T m) :=
  match b with
  | some b => boundVector what m b
  | none => .ok stay

theorem updateBounds_eq (S : Solver T n m) (bmin bmax : Option (Array T)) :
    S.updateBounds bmin bmax =
      (boundsOr .lowerBounds bmin (ScaledProgram.unscaledBound S.program.bmin S.program.lowerFinite
        S.program.scaling.einv (Vec.fill m (-S.program.limit))) >>= fun lower =>
      boundsOr .upperBounds bmax (ScaledProgram.unscaledBound S.program.bmax S.program.upperFinite
        S.program.scaling.einv (Vec.fill m S.program.limit)) >>= fun upper =>
      match inconsistentBound? lower.toArray upper.toArray with
      | some i => .error (.inconsistentBounds i)
      | none => .ok { S with program := S.program.setBounds lower upper }) := by
  cases bmin with
  | none => cases bmax <;> rfl
  | some l => cases bmax <;> rfl

/-- An accepted change of the bounds only replaces the bounds of the program, by bounds that are in order. -/
theorem exists_of_updateBounds {bmin bmax : Option (Array T)} {S' : Solver T n m}
    (h : S.updateBounds bmin bmax = .ok S') :
    ∃ lower upper, inconsistentBound? lower.toArray upper.toArray = none ∧
      S' = { S with program := S.program.setBounds lower upper } := by
  rw [updateBounds_eq] at h
  obtain ⟨lower, -, h⟩ := bind_eq_ok.mp h
  obtain ⟨upper, -, h⟩ := bind_eq_ok.mp h
  split at h
  · cases h
  · next hordered =>
      cases h
      exact ⟨lower, upper, hordered, rfl⟩

end Solver

/-! ## Results -/

namespace Results

theorem size_resized (a : Array T) (k : Nat) : (resized a k).size = k := by
  simp only [resized, Array.size_append, Array.size_extract, Array.size_replicate]
  omega

/-- An array that is copied over another one of its size takes its place. -/
theorem copyOver_eq {target source : Array T} (hs : target.size = source.size) : copyOver target source = source := by
  have hsize : (copyOver target source).size = target.size := size_foldl_setIfInBounds _ id _ target
  refine array_ext_getD 0 (hsize.trans hs) fun k hk => ?_
  rw [hsize] at hk
  refine getD_foldl_set_of_mem _ id (fun i => source.getD i 0) target 0 hk ⟨k, List.mem_range.mpr (hs ▸ hk), rfl⟩ ?_
  rintro _ - rfl
  rfl

end Results

namespace Outcome

theorem size_orNaN {k : Nat} (condition : Bool) (v : Vector T k) : (orNaN condition v).size = k := by
  unfold orNaN
  split
  · exact v.size_toArray
  · exact Array.size_replicate

/-- Nothing is left of the results that are written over. -/
theorem writeResults_eq (o : Outcome T n m) (P : ScaledProgram T n m) (old : Results T) :
    o.writeResults P old = o.results P := by
  have hsize {k : Nat} (a : Array T) (condition : Bool) (v : Vector T k) :
      (Results.resized a k).size = (orNaN condition v).size := by
    rw [Results.size_resized, size_orNaN]
  unfold writeResults Results.overwrite Results.resize results
  simp only [Results.copyOver_eq (hsize _ _ _)]

end Outcome

/-! ## Workspaces -/

namespace Workspace

variable {w : Workspace T} {S : Solver T n m}

omit [Scalar T] in
theorem change_eq (hw : w.prepared = some ⟨n, m, S⟩) {f : {n m : Nat} → Solver T n m → Except UpdateError (Solver T n m)}
    (h : (w.change f).2 = .ok ()) :
    ∃ S', f S = .ok S' ∧ (w.change f).1 = { w with prepared := some ⟨n, m, S'⟩ } := by
  unfold change at h ⊢
  rw [hw] at h ⊢
  simp only at h ⊢
  split at h
  · cases h
  · next S' hS' => exact ⟨S', hS', rfl⟩

omit [Scalar T] in
theorem change_outcome (hw : w.prepared = some ⟨n, m, S⟩)
    (f : {n m : Nat} → Solver T n m → Except UpdateError (Solver T n m)) :
    (w.change f).2 = (f S).map fun _ => () := by
  unfold change
  rw [hw]
  cases hf : f S with
  | error e => simp only [hf, Except.map]
  | ok S' => simp only [hf, Except.map]

/-- Whether a linear cost is accepted depends on the number of variables only. -/
theorem updateCost_outcome (hw : w.prepared = some ⟨n, m, S⟩) (q : Array T) :
    (w.updateCost q).2 = (finiteVector .linearCost n q).map fun _ => () := by
  rw [updateCost, change_outcome hw, Solver.updateCost]
  cases finiteVector .linearCost n q with
  | error e => rfl
  | ok v => rfl

/-- Whether bounds are accepted depends on the program only. -/
theorem updateBounds_outcome_congr {w' : Workspace T} {S' : Solver T n m} (hw : w.prepared = some ⟨n, m, S⟩)
    (hw' : w'.prepared = some ⟨n, m, S'⟩) (hprogram : S'.program = S.program) (bmin bmax : Option (Array T)) :
    (w'.updateBounds bmin bmax).2 = (w.updateBounds bmin bmax).2 := by
  rw [updateBounds, updateBounds, change_outcome hw, change_outcome hw', Solver.updateBounds_eq,
    Solver.updateBounds_eq, hprogram]
  cases Solver.boundsOr .lowerBounds bmin (ScaledProgram.unscaledBound S.program.bmin S.program.lowerFinite
      S.program.scaling.einv (Vec.fill m (-S.program.limit))) with
  | error e => rfl
  | ok lower =>
      cases Solver.boundsOr .upperBounds bmax (ScaledProgram.unscaledBound S.program.bmax S.program.upperFinite
          S.program.scaling.einv (Vec.fill m S.program.limit)) with
      | error e => rfl
      | ok upper =>
          simp only [bind, Except.bind]
          cases inconsistentBound? lower.toArray upper.toArray with
          | none => rfl
          | some i => rfl

theorem warmStart_of_prepared (hw : w.prepared = some ⟨n, m, S⟩) (x y : Option (Array T)) :
    w.warmStart x y = ({ w with prepared := some ⟨n, m, (S.warmStart x y).1⟩ }, (S.warmStart x y).2) := by
  unfold warmStart
  rw [hw]

theorem warmStart_eq (hw : w.prepared = some ⟨n, m, S⟩) (x y : Option (Array T)) :
    (w.warmStart x y).1.prepared = some ⟨n, m, (S.warmStart x y).1⟩ ∧ (w.warmStart x y).2 = (S.warmStart x y).2 := by
  rw [warmStart_of_prepared hw]
  exact ⟨rfl, rfl⟩

theorem setup_eq [Elimination.Rule] {problem : ProblemInput T} {c : Settings T} {limit : T}
    (h : (Workspace.setup problem c limit).1 = .ok w) (hdims : w.dims = some (n, m)) :
    ∃ S : Solver T n m, w.prepared = some ⟨n, m, S⟩ ∧ problem.validate c = .ok (n, m) ∧
      Solver.ofProgram (problem.normalize n m limit).1 c = .ok S := by
  unfold Workspace.setup at h
  split at h
  · cases h
  · next n' m' hvalid =>
      simp only at h
      split at h
      · cases h
      · next S hS =>
          cases h
          obtain ⟨rfl, rfl⟩ : n' = n ∧ m' = m := by simpa [dims] using hdims
          exact ⟨S, rfl, hvalid, hS⟩

theorem setup_spec [Elimination.Rule] {problem : ProblemInput T} {c : Settings T} {limit : T}
    (h : (Workspace.setup problem c limit).1 = .ok w) (hw : w.prepared = some ⟨n, m, S⟩) :
    problem.validate c = .ok (n, m) ∧ Solver.ofProgram (problem.normalize n m limit).1 c = .ok S := by
  obtain ⟨S', hw', hvalid, hS'⟩ := setup_eq h (by rw [dims, hw]; rfl)
  have heq : S' = S := by
    rw [hw] at hw'
    cases hw'
    rfl
  exact ⟨hvalid, heq ▸ hS'⟩

theorem exists_setup [Elimination.Rule] {problem : ProblemInput T} {c : Settings T} {limit : T}
    (hvalid : problem.validate c = .ok (n, m)) (hS : Solver.ofProgram (problem.normalize n m limit).1 c = .ok S) :
    ∃ w log, Workspace.setup problem c limit = (.ok w, log) ∧ w.prepared = some ⟨n, m, S⟩ := by
  unfold Workspace.setup
  rw [hvalid]
  simp only [hS]
  exact ⟨_, _, rfl, rfl⟩

end Workspace

end Solvers

section Solves

variable {T : Type} [MachineScalar T] {n m : Nat} {w : Workspace T} {S : Solver T n m} {clock : Nat → Float}
variable {old : Results T} {solution : Solution T}

namespace Workspace

theorem exists_solveInto (hw : w.prepared = some ⟨n, m, S⟩) (clock : Nat → Float) (old : Results T) :
    ∃ solution, w.solveInto clock old = .ok solution := by
  unfold solveInto
  rw [hw]
  exact ⟨_, rfl⟩

theorem solveInto_eq (hw : w.prepared = some ⟨n, m, S⟩) (h : w.solveInto clock old = .ok solution) :
    solution.workspace.prepared = some ⟨n, m, (S.run fun updates => S.settings.timeLimit < clock updates).1⟩ ∧
      solution.results =
        (S.run fun updates => S.settings.timeLimit < clock updates).2.results S.program := by
  unfold solveInto at h
  rw [hw] at h
  cases h
  exact ⟨rfl, Outcome.writeResults_eq ..⟩

theorem solve_eq (hw : w.prepared = some ⟨n, m, S⟩) (h : w.solve clock = .ok solution) :
    solution.workspace.prepared = some ⟨n, m, (S.run fun updates => S.settings.timeLimit < clock updates).1⟩ ∧
      solution.results =
        (S.run fun updates => S.settings.timeLimit < clock updates).2.results S.program :=
  solveInto_eq hw h

/-- Without a time limit the clock does not matter. -/
theorem exists_solveInto_untimed (hw : w.prepared = some ⟨n, m, S⟩) (htime : S.settings.timeLimit = Scalar.infinity)
    (clock : Nat → Float) (old : Results T) :
    ∃ solution, w.solveInto clock old = .ok solution ∧
      solution.workspace.prepared = some ⟨n, m, (S.run fun _ => false).1⟩ ∧
        solution.results = (S.run fun _ => false).2.results S.program := by
  have hnever : (fun updates => decide (S.settings.timeLimit < clock updates)) = fun _ => false := by
    funext updates
    rw [htime]
    exact decide_eq_false (not_infinity_lt (clock updates))
  obtain ⟨solution, hsolve⟩ := exists_solveInto hw clock old
  obtain ⟨hprepared, hresults⟩ := solveInto_eq hw hsolve
  rw [hnever] at hprepared hresults
  exact ⟨solution, hsolve, hprepared, hresults⟩

end Workspace

end Solves

end AugLag
