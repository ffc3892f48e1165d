import AugLag.Proofs.Newton.Fresh
import AugLag.Proofs.Problem.Valid
import AugLag.Proofs.Solver.Simulation

/-!
# Solvers that have run before

A solver keeps its engine and its last evaluation from one run to the next. Neither leaves a trace in the results of the
next run: they are those of a solver that has not run yet. Nothing here depends on how the scalars calculate.
-/

namespace AugLag

variable {T : Type} [Scalar T] {n m : Nat} {P : ScaledProgram T n m} {c : Settings T}

open SparseMatrix

/-! ## Engines in runs -/

theorem interchangeable_of_indistinct (P : ScaledProgram T n m) (c : Settings T) :
    Interchangeable P c c.policy (fun _ => True) (NewtonEngine.Indistinct P.Q P.A) where
  update _ _ penalty active h _ := (h.update active penalty.sigma penalty.rho c).1
  outcome _ _ penalty active h _ := (h.update active penalty.sigma penalty.rho c).2.1
  solve _ _ penalty active h _ hok rhs :=
    congrArg (·.solve rhs) ((h.update active penalty.sigma penalty.rho c).2.2 hok)
  regularize _ _ := trivial
  commit _ _ := trivial
  grow _ _ _ _ := trivial
  lowerProximal _ _ _ := trivial

/-- What every update of an engine keeps is kept by a run. -/
theorem Run.engine_complete {E : NewtonEngine T n m → Prop} (hE : ∀ e active sigma rho, E e →
    E (e.update P.Q P.A active sigma rho c).1) {r : Run T n m} (h : E r.newton.engine) (expired : Nat → Bool) :
    E (r.complete P c expired).1.newton.engine := by
  have hsim : Interchangeable P c c.policy (fun _ => True) fun e e' => e' = e ∧ E e :=
    { update := fun e e' penalty active ⟨heq, he⟩ _ => ⟨by rw [heq, c.withPolicy_policy], hE e active penalty.sigma penalty.rho he⟩
      outcome := fun e e' penalty active ⟨heq, _⟩ _ => by rw [heq, c.withPolicy_policy]
      solve := fun e e' penalty active ⟨heq, _⟩ _ _ rhs => by rw [heq, c.withPolicy_policy]
      regularize := fun _ _ => trivial
      commit := fun _ _ => trivial
      grow := fun _ _ _ _ => trivial
      lowerProximal := fun _ _ _ => trivial }
  have halike : Run.Alike (fun _ => True) (fun e e' => e' = e ∧ E e) r r :=
    ⟨rfl, { penalty := rfl, inside := trivial, engines := ⟨rfl, h⟩ }⟩
  exact (halike.complete hsim expired).1.2.engines.2

/-! ## The matrices of a program -/

namespace ScaledProgram

theorem samePattern_rounds (P : ScaledProgram T n m) (c : Settings T) (l : List Nat) :
    SamePattern (l.foldl (fun P _ => equilibrateRound c P) P).Q P.Q ∧
      SamePattern (l.foldl (fun P _ => equilibrateRound c P) P).A P.A := by
  induction l generalizing P with
  | nil => exact ⟨SamePattern.refl _, SamePattern.refl _⟩
  | cons k l ih =>
      obtain ⟨hQ, hA⟩ := ih (equilibrateRound c P)
      exact ⟨hQ.trans (samePattern_scaleBoth ..), hA.trans (samePattern_scaleBoth ..)⟩

/-- Equilibration only changes values. -/
theorem samePattern_equilibrate (P : ScaledProgram T n m) (c : Settings T) :
    SamePattern (P.equilibrate c).Q P.Q ∧ SamePattern (P.equilibrate c).A P.A := by
  unfold equilibrate
  split
  · exact ⟨SamePattern.refl _, SamePattern.refl _⟩
  · obtain ⟨hQ, hA⟩ := samePattern_rounds P c (List.range c.scalingIter)
    exact ⟨(samePattern_scale _ _).trans hQ, hA⟩

end ScaledProgram

/-! ## Solvers -/

namespace Solver

variable {S S' : Solver T n m}

theorem fresh_eq_ok [Elimination.Rule] {x : Vector T n} {y : Vector T m} {lambda : Option T} :
    fresh P c x y lambda = .ok S ↔ ∃ engine, NewtonEngine.ofProblem P.Q P.A n m c.factorizationMethod = .ok engine ∧
      { program := P, settings := c, engine, xStart := x, yStart := y, lambdaMin := lambda,
        evaluation := Evaluation.zero n m } = S :=
  map_eq_ok

/-- The engine is for the matrices of the program, and the form it has is the one that a new engine would have. -/
structure Maintained [Elimination.Rule] (S : Solver T n m) : Prop where
  data : NewtonData S.program.Q S.program.A n m
  settings : S.settings.validate = .ok ()
  built : S.engine.Built S.program.Q S.program.A
  origin : ∃ engine, NewtonEngine.ofProblem S.program.Q S.program.A n m S.settings.factorizationMethod = .ok engine ∧
    NewtonEngine.Siblings engine S.engine

theorem Maintained.of_engine [Elimination.Rule] (h : S.Maintained) (hQ : S'.program.Q = S.program.Q)
    (hA : S'.program.A = S.program.A) (hc : S'.settings.validate = .ok ())
    (hmethod : S'.settings.factorizationMethod = S.settings.factorizationMethod)
    (hbuilt : S'.engine.Built S.program.Q S.program.A) (hs : NewtonEngine.Siblings S.engine S'.engine) :
    S'.Maintained where
  data := by
    rw [hQ, hA]
    exact h.data
  settings := hc
  built := by
    rw [hQ, hA]
    exact hbuilt
  origin := by
    obtain ⟨engine, hengine, hsib⟩ := h.origin
    rw [hQ, hA, hmethod]
    exact ⟨engine, hengine, hsib.trans hs⟩

theorem maintained_of_setup [Elimination.Rule] {problem : ProblemInput T} {limit : T}
    (hvalid : problem.validate c = .ok (n, m)) (h : Solver.ofProgram (problem.normalize n m limit).1 c = .ok S) :
    S.Maintained := by
  have hP := ProblemInput.valid_of_validate hvalid
  obtain ⟨engine, hengine, rfl⟩ := fresh_eq_ok.mp h
  obtain ⟨hQ, hA⟩ := ScaledProgram.samePattern_equilibrate (ScaledProgram.ofProgram (problem.normalize n m limit).1) c
  have hdata := (hP.formed limit).of_samePattern hQ hA
  exact
    { data := hdata
      settings := hP.settings
      built := NewtonEngine.built_of_ofProblem hdata hengine
      origin := ⟨engine, hengine, NewtonEngine.Siblings.refl engine⟩ }

theorem Maintained.run [Elimination.Rule] (h : S.Maintained) (expired : Nat → Bool) : (S.run expired).1.Maintained := by
  obtain ⟨hbuilt, hs, -⟩ := h.built.invalidate
  have hkeeps : ∀ e active sigma rho, e.Built S.program.Q S.program.A ∧ NewtonEngine.Siblings S.engine e →
      (e.update S.program.Q S.program.A active sigma rho S.settings).1.Built S.program.Q S.program.A ∧
        NewtonEngine.Siblings S.engine (e.update S.program.Q S.program.A active sigma rho S.settings).1 :=
    fun e active sigma rho ⟨he, hsib⟩ =>
      ⟨(he.update active sigma rho S.settings).1, hsib.trans (he.update active sigma rho S.settings).2⟩
  obtain ⟨hbuilt', hs'⟩ := Run.engine_complete (r := S.start) hkeeps ⟨hbuilt, hs⟩ expired
  exact h.of_engine rfl rfl h.settings rfl hbuilt' hs'

/-- Whatever a solver has been through, its results are those of one that has not run yet. -/
theorem Maintained.results_eq [Elimination.Rule] (h : S.Maintained) :
    ∃ S₀, fresh S.program S.settings S.xStart S.yStart S.lambdaMin = .ok S₀ ∧
      S₀.settings = S.settings ∧
        ∀ expired, (S₀.run expired).2.results S₀.program = (S.run expired).2.results S.program := by
  obtain ⟨engine, hengine, hs⟩ := h.origin
  have hengines := hs.symm.indistinct h.built (NewtonEngine.built_of_ofProblem h.data hengine)
  refine ⟨_, fresh_eq_ok.mpr ⟨engine, hengine, rfl⟩, rfl, fun expired => ?_⟩
  refine results_eq_of_interchangeable (S := S) ?_ ?_ ?_ ?_ ?_ h.settings
    (interchangeable_of_indistinct S.program S.settings) trivial hengines expired
  all_goals rfl

end Solver
end AugLag
