import AugLag.Proofs.Solver.Replay
import AugLag.Proofs.Workspace.Convex

/-!
# Solving again

The results of a solve depend on the scaled program, the settings, the starting point and the estimate of the smallest
eigenvalue, and on nothing else that a workspace has kept. In particular a solve that is repeated has the same results.
Nothing here depends on how the scalars calculate.
-/

namespace AugLag

variable {T : Type} {n m : Nat}

/-! ## Solvers -/

namespace Solver.Maintained

variable [Scalar T] {S S' : Solver T n m}

theorem warmStart [Elimination.Rule] (h : S.Maintained) (x y : Option (Array T)) : (S.warmStart x y).1.Maintained := by
  obtain ⟨hprogram, hsettings, hengine, -⟩ := S.warmStart_keeps x y
  refine h.of_engine (by rw [hprogram]) (by rw [hprogram]) (by rw [hsettings]; exact h.settings) (by rw [hsettings]) ?_ ?_
  · rw [hengine]
    exact h.built
  · rw [hengine]
    exact NewtonEngine.Siblings.refl _

theorem updateCost [Elimination.Rule] (h : S.Maintained) {q : Array T} (hS : S.updateCost q = .ok S') :
    S'.Maintained := by
  obtain ⟨v, -, rfl⟩ := map_eq_ok.mp hS
  exact h.of_engine rfl rfl h.settings rfl h.built (NewtonEngine.Siblings.refl _)

theorem updateBounds [Elimination.Rule] (h : S.Maintained) {lower upper : Option (Array T)}
    (hS : S.updateBounds lower upper = .ok S') :
    S'.Maintained := by
  obtain ⟨bmin, bmax, -, rfl⟩ := exists_of_updateBounds hS
  exact h.of_engine rfl rfl h.settings rfl h.built (NewtonEngine.Siblings.refl _)

/-- New settings cannot ask for another form of the Newton system. -/
theorem updateSettings [Elimination.Rule] (h : S.Maintained) {c : Settings T} (hS : S.updateSettings c = .ok S') :
    S'.Maintained := by
  obtain ⟨u, hc, rfl⟩ := map_eq_ok.mp hS
  have hvalid := mapError_eq_ok.mp hc
  obtain ⟨hbuilt, hs, -⟩ := h.built.invalidate
  exact h.of_engine rfl rfl (Settings.validate_of_validateAsUpdate hvalid) (Settings.method_of_validateAsUpdate hvalid)
    hbuilt hs

end Solver.Maintained

/-- A property of solvers that holds after setup and is kept by every call. -/
structure Solver.KeptByCalls [Elimination.Rule] [Scalar T] (D : {n m : Nat} → Solver T n m → Prop) : Prop where
  setup : ∀ {problem : ProblemInput T} {c : Settings T} {limit : T} {n m : Nat} {S : Solver T n m},
    problem.validate c = .ok (n, m) → Solver.ofProgram (problem.normalize n m limit).1 c = .ok S → D S
  warmStart : ∀ {n m : Nat} {S : Solver T n m} (x y : Option (Array T)), D S → D (S.warmStart x y).1
  updateCost : ∀ {n m : Nat} {S S' : Solver T n m} (q : Array T), D S → S.updateCost q = .ok S' → D S'
  updateBounds : ∀ {n m : Nat} {S S' : Solver T n m} (lower upper : Option (Array T)), D S →
    S.updateBounds lower upper = .ok S' → D S'
  updateSettings : ∀ {n m : Nat} {S S' : Solver T n m} (c : Settings T), D S → S.updateSettings c = .ok S' → D S'
  run : ∀ {n m : Nat} {S : Solver T n m} (expired : Nat → Bool), D S → D (S.run expired).1

/-! ## Workspaces -/

namespace Workspace

section Invariant

variable [Scalar T] {w : Workspace T}

/-- The solver that the workspace holds, if it holds one, is maintained. -/
def Maintained [Elimination.Rule] (w : Workspace T) : Prop := ∀ p ∈ w.prepared, p.solver.Maintained

omit [Scalar T] in
/-- What an accepted change keeps of a solver, a change keeps of a workspace. -/
theorem change_keeps {D : {n m : Nat} → Solver T n m → Prop} (h : ∀ p ∈ w.prepared, D p.solver)
    {f : {n m : Nat} → Solver T n m → Except UpdateError (Solver T n m)}
    (hf : ∀ {n m : Nat} {S S' : Solver T n m}, D S → f S = .ok S' → D S') :
    ∀ p ∈ (w.change f).1.prepared, D p.solver := by
  unfold Workspace.change
  split
  · exact h
  · next p hw =>
      split
      · exact h
      · next S' hS' =>
          intro p' hp'
          cases hp'
          exact hf (h p hw) hS'

omit [Scalar T] in
/-- What an accepted change makes of a solver holds of the workspace. -/
theorem change_yields {D D' : {n m : Nat} → Solver T n m → Prop} (h : ∀ p ∈ w.prepared, D p.solver)
    {f : {n m : Nat} → Solver T n m → Except UpdateError (Solver T n m)} (hok : (w.change f).2 = .ok ())
    (hf : ∀ {n m : Nat} {S S' : Solver T n m}, D S → f S = .ok S' → D' S') :
    ∀ p ∈ (w.change f).1.prepared, D' p.solver := by
  cases hw : w.prepared with
  | none =>
      rw [change, hw] at hok
      cases hok
  | some p =>
      obtain ⟨S', hS', heq⟩ := change_eq hw hok
      rw [heq]
      intro p' hp'
      cases hp'
      exact hf (h p hw) hS'

theorem warmStart_keeps {D : {n m : Nat} → Solver T n m → Prop} (h : ∀ p ∈ w.prepared, D p.solver)
    (x y : Option (Array T)) (hD : ∀ {n m : Nat} {S : Solver T n m}, D S → D (S.warmStart x y).1) :
    ∀ p ∈ (w.warmStart x y).1.prepared, D p.solver := by
  unfold Workspace.warmStart
  split
  · exact h
  · next p hw =>
      intro p' hp'
      cases hp'
      exact hD (h p hw)

end Invariant

variable [MachineScalar T] {w : Workspace T} {S : Solver T n m}

theorem solveInto_keeps {D : {n m : Nat} → Solver T n m → Prop} (h : ∀ p ∈ w.prepared, D p.solver)
    (hD : ∀ {n m : Nat} {S : Solver T n m} (expired : Nat → Bool), D S → D (S.run expired).1) {clock : Nat → Float}
    {old : Results T} {solution : Solution T} (hsolve : w.solveInto clock old = .ok solution) :
    ∀ p ∈ solution.workspace.prepared, D p.solver := by
  cases hw : w.prepared with
  | none =>
      unfold solveInto at hsolve
      rw [hw] at hsolve
      cases hsolve
  | some p =>
      intro p' hp'
      rw [(solveInto_eq hw hsolve).1] at hp'
      cases hp'
      exact hD _ (h p hw)

/-- A workspace after any sequence of calls, accepted or refused. -/
inductive Reachable [Elimination.Rule] : Workspace T → Prop
  | setup {problem : ProblemInput T} {c : Settings T} {limit : T} {w : Workspace T} :
      (Workspace.setup problem c limit).1 = .ok w → Reachable w
  | warmStart {w : Workspace T} (x y : Option (Array T)) : Reachable w → Reachable (w.warmStart x y).1
  | updateCost {w : Workspace T} (q : Array T) : Reachable w → Reachable (w.updateCost q).1
  | updateBounds {w : Workspace T} (lower upper : Option (Array T)) :
      Reachable w → Reachable (w.updateBounds lower upper).1
  | updateSettings {w : Workspace T} (c : Settings T) : Reachable w → Reachable (w.updateSettings c).1
  | solve {w : Workspace T} {clock : Nat → Float} {old : Results T} {solution : Solution T} :
      Reachable w → w.solveInto clock old = .ok solution → Reachable solution.workspace
  | printTo {w : Workspace T} (target : PrintTarget) : Reachable w → Reachable (w.printTo target)
  | release {w : Workspace T} : Reachable w → Reachable w.release.1

namespace Reachable

/-- What every call keeps holds whatever calls there were. -/
theorem keeps [Elimination.Rule] {D : {n m : Nat} → Solver T n m → Prop} (h : Reachable w) (hD : Solver.KeptByCalls D) :
    ∀ p ∈ w.prepared, D p.solver := by
  induction h with
  | @setup problem c limit w hsetup =>
      rintro ⟨n, m, S⟩ hw
      obtain ⟨hvalid, hS⟩ := setup_spec hsetup hw
      exact hD.setup hvalid hS
  | warmStart x y _ ih => exact warmStart_keeps ih x y (hD.warmStart x y)
  | updateCost q _ ih => exact change_keeps ih (hD.updateCost q)
  | updateBounds lower upper _ ih => exact change_keeps ih (hD.updateBounds lower upper)
  | updateSettings c _ ih => exact change_keeps ih (hD.updateSettings c)
  | solve _ hsolve ih => exact solveInto_keeps ih hD.run hsolve
  | printTo _ _ ih => exact ih
  | release _ _ =>
      intro p hp
      cases hp

theorem maintained [Elimination.Rule] (h : Reachable w) : w.Maintained :=
  h.keeps
    { setup := Solver.maintained_of_setup
      warmStart := fun x y hS => hS.warmStart x y
      updateCost := fun _ hS heq => hS.updateCost heq
      updateBounds := fun _ _ hS heq => hS.updateBounds heq
      updateSettings := fun _ hS heq => hS.updateSettings heq
      run := fun expired hS => hS.run expired }

/-- Without a time limit a solve has the results of a solver that has not run yet, for the same scaled program, settings,
starting point and smallest eigenvalue, and so has the next solve. Neither the calls that the workspace has been through
nor the results that are written over make a difference. -/
theorem solves_as_fresh [Elimination.Rule] (h : Reachable w) (hw : w.prepared = some ⟨n, m, S⟩)
    (htime : S.settings.timeLimit = Scalar.infinity) :
    ∃ S₀, Solver.fresh S.program S.settings S.xStart S.yStart S.lambdaMin = .ok S₀ ∧
      ∀ (clock clock₀ clock' : Nat → Float) (old old₀ old' : Results T) (target : PrintTarget),
        ∃ solution solution₀ solution', w.solveInto clock old = .ok solution ∧
          solveInto { prepared := some ⟨n, m, S₀⟩, target } clock₀ old₀ = .ok solution₀ ∧
          solution.workspace.solveInto clock' old' = .ok solution' ∧
            solution.results = solution₀.results ∧ solution'.results = solution.results := by
  have hS : S.Maintained := h.maintained _ hw
  obtain ⟨S₀, hfresh, hsettings, hresults⟩ := hS.results_eq
  refine ⟨S₀, hfresh, fun clock clock₀ clock' old old₀ old' target => ?_⟩
  obtain ⟨solution, hsolve, hprepared, heq⟩ := exists_solveInto_untimed hw htime clock old
  obtain ⟨solution₀, hsolve₀, -, heq₀⟩ :=
    exists_solveInto_untimed (w := { prepared := some ⟨n, m, S₀⟩, target }) rfl (hsettings ▸ htime) clock₀ old₀
  obtain ⟨solution', hsolve', -, heq'⟩ := exists_solveInto_untimed hprepared htime clock' old'
  refine ⟨solution, solution₀, solution', hsolve, hsolve₀, hsolve', ?_, ?_⟩
  · rw [heq, heq₀, hresults]
  · -- After the first solve a new solver would be the very same one.
    obtain ⟨S₁, hfresh', -, hresults'⟩ := (hS.run fun _ => false).results_eq
    have hsame : S₁ = S₀ := Except.ok.inj (hfresh'.symm.trans hfresh)
    rw [heq', heq, ← hresults, ← hresults', hsame]

/-- The second solve of the sample, whose results are written over those of the first one. -/
theorem solves_as_fresh_lopsided :
    ∃ (first solution solution₀ : Solution ℚ) (S S₀ : Solver ℚ 2 2),
      (Sample.opened Sample.lopsided).solveInto (fun _ => 0) (Results.blank 5 3) = .ok first ∧
        first.workspace.prepared = some ⟨2, 2, S⟩ ∧
          Solver.fresh S.program S.settings S.xStart S.yStart S.lambdaMin = .ok S₀ ∧
            first.workspace.solveInto (fun _ => 1) first.results = .ok solution ∧
              solveInto { prepared := some ⟨2, 2, S₀⟩, target := .stdout } (fun _ => 2) (Results.blank 0 0) =
                  .ok solution₀ ∧
                solution.results = solution₀.results := by
  obtain ⟨S, hw, hsettings, -⟩ := Sample.exists_solver_lopsided
  obtain ⟨first, hfirst⟩ := exists_solveInto hw (fun _ => 0) (Results.blank 5 3)
  have htime : (S.run fun updates => S.settings.timeLimit < (fun _ => 0) updates).1.settings.timeLimit =
      Scalar.infinity := by
    show S.settings.timeLimit = _
    rw [hsettings]
    rfl
  obtain ⟨S₀, hfresh, hsolves⟩ :=
    solves_as_fresh (.solve (.setup Sample.setup_lopsided) hfirst) (solveInto_eq hw hfirst).1 htime
  obtain ⟨solution, solution₀, -, hsolve, hsolve₀, -, hsame, -⟩ :=
    hsolves (fun _ => 1) (fun _ => 2) (fun _ => 3) first.results (Results.blank 0 0) (Results.blank 0 0) .stdout
  exact ⟨first, solution, solution₀, _, S₀, hfirst, (solveInto_eq hw hfirst).1, hfresh, hsolve, hsolve₀, hsame⟩

end Reachable
end Workspace
end AugLag
