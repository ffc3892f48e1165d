import AugLag.Proofs.Settings
import AugLag.Solver.Basic

/-!
# Runs with exchanged engines

A solve learns from its engine only whether an update succeeded and what the solutions are. Engines that agree on both
under all updates of a solve can be exchanged without a trace in the results, also together with the settings that only
engines read. Nothing here depends on how the scalars calculate.
-/

namespace AugLag

variable {T : Type} [Scalar T] {n m : Nat}

/-- The settings that say how the Newton systems are factored. -/
structure Policy (T : Type) where
  method : Method
  maxRankUpdate : Nat
  maxRankUpdateFraction : T
  resetNewtonIter : Nat

namespace Settings

def policy (c : Settings T) : Policy T where
  method := c.factorizationMethod
  maxRankUpdate := c.maxRankUpdate
  maxRankUpdateFraction := c.maxRankUpdateFraction
  resetNewtonIter := c.resetNewtonIter

def withPolicy (c : Settings T) (policy : Policy T) : Settings T :=
  { c with
    factorizationMethod := policy.method
    maxRankUpdate := policy.maxRankUpdate
    maxRankUpdateFraction := policy.maxRankUpdateFraction
    resetNewtonIter := policy.resetNewtonIter }

omit [Scalar T] in
theorem withPolicy_policy (c : Settings T) : c.withPolicy c.policy = c := rfl

end Settings

/-- Engines related by `R` cannot be told apart by updates under penalties in the domain `D`, and the changes of the
penalties during a solve stay in that domain. -/
structure Interchangeable (P : ScaledProgram T n m) (c : Settings T) (policy : Policy T) (D : Penalty T m → Prop)
    (R : NewtonEngine T n m → NewtonEngine T n m → Prop) : Prop where
  update : ∀ e e' penalty active, R e e' → D penalty →
    R (e.update P.Q P.A active penalty.sigma penalty.rho c).1
      (e'.update P.Q P.A active penalty.sigma penalty.rho (c.withPolicy policy)).1
  outcome : ∀ e e' penalty active, R e e' → D penalty →
    (e'.update P.Q P.A active penalty.sigma penalty.rho (c.withPolicy policy)).2.1 =
      (e.update P.Q P.A active penalty.sigma penalty.rho c).2.1
  solve : ∀ e e' penalty active, R e e' → D penalty →
    (e.update P.Q P.A active penalty.sigma penalty.rho c).2.1 = .ok () → ∀ rhs,
    (e'.update P.Q P.A active penalty.sigma penalty.rho (c.withPolicy policy)).1.solve rhs =
      (e.update P.Q P.A active penalty.sigma penalty.rho c).1.solve rhs
  regularize : ∀ penalty, D penalty → D (penalty.regularize c)
  commit : ∀ penalty, D penalty → D penalty.commit
  grow : ∀ penalty violation previous, D penalty → D (penalty.grow violation previous c).1
  lowerProximal : ∀ penalty solved, D penalty → D (penalty.lowerProximal solved c).1

variable {P : ScaledProgram T n m} {c : Settings T} {policy : Policy T} {D : Penalty T m → Prop}
  {R : NewtonEngine T n m → NewtonEngine T n m → Prop}

/-! ## Newton steps -/

theorem LineSearch.backtrack_withPolicy (S : LineSearch T m) (c : Settings T) (policy : Policy T) (slope : T)
    (tries : Nat) (τ : T) : S.backtrack (c.withPolicy policy) slope tries τ = S.backtrack c slope tries τ := by
  induction tries generalizing τ with
  | zero => rfl
  | succ tries ih =>
      unfold backtrack
      rw [ih]
      rfl

theorem LineSearch.search?_withPolicy (S : LineSearch T m) (c : Settings T) (policy : Policy T) :
    S.search? (c.withPolicy policy) = S.search? c := by
  simp only [search?, backtrack_withPolicy]
  rfl

/-- Two states with equal penalties, in the domain, and related engines. -/
structure NewtonState.Alike (D : Penalty T m → Prop) (R : NewtonEngine T n m → NewtonEngine T n m → Prop)
    (s s' : NewtonState T n m) : Prop where
  penalty : s'.penalty = s.penalty
  inside : D s.penalty
  engines : R s.engine s'.engine

namespace NewtonState.Alike

variable {s s' : NewtonState T n m}

theorem update (hsim : Interchangeable P c policy D R) (h : Alike D R s s') (active : Vector Bool m) :
    Alike D R (s.update P active c).1 (s'.update P active (c.withPolicy policy)).1 ∧
      (s'.update P active (c.withPolicy policy)).2.1 = (s.update P active c).2.1 ∧
      ((s.update P active c).2.1 = .ok () → ∀ rhs,
        (s'.update P active (c.withPolicy policy)).1.engine.solve rhs = (s.update P active c).1.engine.solve rhs) := by
  unfold NewtonState.update
  simp only [h.penalty]
  exact ⟨{ penalty := rfl, inside := h.inside, engines := hsim.update _ _ _ active h.engines h.inside },
    hsim.outcome _ _ _ active h.engines h.inside, hsim.solve _ _ _ active h.engines h.inside⟩

theorem factorWithRetries (hsim : Interchangeable P c policy D R) (active : Vector Bool m) (tries failures : Nat)
    (h : Alike D R s s') :
    Alike D R (NewtonState.factorWithRetries P active c tries failures s).1
        (NewtonState.factorWithRetries P active (c.withPolicy policy) tries failures s').1 ∧
      (NewtonState.factorWithRetries P active (c.withPolicy policy) tries failures s').2.1 =
        (NewtonState.factorWithRetries P active c tries failures s).2.1 ∧
      ∀ k, (NewtonState.factorWithRetries P active c tries failures s).2.1 = .ok k → ∀ rhs,
        (NewtonState.factorWithRetries P active (c.withPolicy policy) tries failures s').1.engine.solve rhs =
          (NewtonState.factorWithRetries P active c tries failures s).1.engine.solve rhs := by
  induction tries generalizing failures s s' with
  | zero =>
      obtain ⟨halike, hout, hsolve⟩ := h.update hsim active
      unfold NewtonState.factorWithRetries
      generalize s.update P active c = result at halike hout hsolve ⊢
      generalize s'.update P active (c.withPolicy policy) = result' at halike hout hsolve ⊢
      obtain ⟨t, outcome, log⟩ := result
      obtain ⟨t', outcome', log'⟩ := result'
      cases (hout : outcome' = outcome)
      cases outcome with
      | ok u => exact ⟨halike, rfl, fun _ _ => hsolve rfl⟩
      | error e => exact ⟨halike, rfl, nofun⟩
  | succ tries ih =>
      obtain ⟨halike, hout, hsolve⟩ := h.update hsim active
      unfold NewtonState.factorWithRetries
      generalize s.update P active c = result at halike hout hsolve ⊢
      generalize s'.update P active (c.withPolicy policy) = result' at halike hout hsolve ⊢
      obtain ⟨t, outcome, log⟩ := result
      obtain ⟨t', outcome', log'⟩ := result'
      cases (hout : outcome' = outcome)
      cases outcome with
      | ok u => exact ⟨halike, rfl, fun _ _ => hsolve rfl⟩
      | error e =>
          have hraised : Alike D R { t with penalty := t.penalty.regularize c }
              { t' with penalty := t'.penalty.regularize (c.withPolicy policy) } :=
            { penalty := congrArg (Penalty.regularize · c) halike.penalty
              inside := hsim.regularize _ halike.inside
              engines := halike.engines }
          exact ih (failures + 1) hraised

theorem factor (hsim : Interchangeable P c policy D R) (h : Alike D R s s') (active : Vector Bool m) :
    Alike D R (s.factor P active c).1 (s'.factor P active (c.withPolicy policy)).1 ∧
      (s'.factor P active (c.withPolicy policy)).2.1 = (s.factor P active c).2.1 ∧
      ∀ raised, (s.factor P active c).2.1 = .ok raised → ∀ rhs,
        (s'.factor P active (c.withPolicy policy)).1.engine.solve rhs = (s.factor P active c).1.engine.solve rhs := by
  obtain ⟨halike, hout, hsolve⟩ := h.factorWithRetries hsim active c.maxFactorizationRetries 0
  unfold NewtonState.factor
  rw [show (c.withPolicy policy).maxFactorizationRetries = c.maxFactorizationRetries from rfl]
  generalize NewtonState.factorWithRetries P active c c.maxFactorizationRetries 0 s = result at halike hout hsolve ⊢
  generalize NewtonState.factorWithRetries P active (c.withPolicy policy) c.maxFactorizationRetries 0 s' = result'
    at halike hout hsolve ⊢
  obtain ⟨t, outcome, log⟩ := result
  obtain ⟨t', outcome', log'⟩ := result'
  cases (hout : outcome' = outcome)
  cases outcome with
  | error e => exact ⟨halike, rfl, nofun⟩
  | ok k =>
      cases k with
      | zero => exact ⟨halike, rfl, fun _ _ => hsolve _ rfl⟩
      | succ k =>
          have hcommitted : Alike D R { t with penalty := t.penalty.commit } { t' with penalty := t'.penalty.commit } :=
            { penalty := congrArg Penalty.commit halike.penalty
              inside := hsim.commit _ halike.inside
              engines := halike.engines }
          exact ⟨hcommitted, rfl, fun _ _ => hsolve _ rfl⟩

theorem factorInitial (hsim : Interchangeable P c policy D R) (h : Alike D R s s') (active : Vector Bool m) :
    Alike D R (s.factorInitial P active c).1 (s'.factorInitial P active (c.withPolicy policy)).1 ∧
      (s'.factorInitial P active (c.withPolicy policy)).2.1 = (s.factorInitial P active c).2.1 := by
  obtain ⟨halike, hout, -⟩ := h.update hsim active
  unfold NewtonState.factorInitial
  generalize s.update P active c = result at halike hout ⊢
  generalize s'.update P active (c.withPolicy policy) = result' at halike hout ⊢
  obtain ⟨t, outcome, log⟩ := result
  obtain ⟨t', outcome', log'⟩ := result'
  cases (hout : outcome' = outcome)
  have hpenalty : t'.penalty = t.penalty := halike.penalty
  obtain ⟨hretry, hretryOut, -⟩ := factor hsim halike active
  simp only [hpenalty, hretryOut]
  cases outcome with
  | ok u => exact ⟨halike, rfl⟩
  | error e =>
      cases e with
      | notPositiveDefinite =>
          simp only
          split
          · exact ⟨halike, rfl⟩
          · exact ⟨hretry, rfl⟩
      | factor cause => exact ⟨hretry, rfl⟩

theorem step (hsim : Interchangeable P c policy D R) (h : Alike D R s s') (p : Point T n m) (e : Evaluation T n m) :
    Alike D R (s.step P p e c).1 (s'.step P p e (c.withPolicy policy)).1 ∧
      (s'.step P p e (c.withPolicy policy)).2.1 = (s.step P p e c).2.1 := by
  obtain ⟨halike, hout, hsolve⟩ := h.factor hsim e.active
  unfold NewtonState.step
  generalize s.factor P e.active c = result at halike hout hsolve
  generalize s'.factor P e.active (c.withPolicy policy) = result' at halike hout hsolve
  obtain ⟨t, outcome, log⟩ := result
  obtain ⟨t', outcome', log'⟩ := result'
  cases (hout : outcome' = outcome)
  cases outcome with
  | error err => exact ⟨halike, rfl⟩
  | ok raised =>
      have hsame : ∀ rhs, t'.engine.solve rhs = t.engine.solve rhs := hsolve raised rfl
      have hpenalty : t'.penalty = t.penalty := halike.penalty
      simp only [hsame, hpenalty, LineSearch.search?_withPolicy, NewtonState.lineSearch]
      split
      · exact ⟨halike, rfl⟩
      · exact ⟨halike, rfl⟩

end NewtonState.Alike

/-! ## Runs -/

namespace Run

variable {r r' : Run T n m}

/-- The second run is the first one with another engine. -/
def Alike (D : Penalty T m → Prop) (R : NewtonEngine T n m → NewtonEngine T n m → Prop) (r r' : Run T n m) : Prop :=
  r' = { r with newton := r'.newton } ∧ r.newton.Alike D R r'.newton

theorem Alike.measure (h : Alike D R r r') (P : ScaledProgram T n m) : Alike D R (r.measure P) (r'.measure P) := by
  obtain ⟨heq, hnewton⟩ := h
  refine ⟨?_, hnewton⟩
  rw [heq]
  simp only [Run.measure, Run.evaluate, hnewton.penalty]

theorem Alike.outerStep (hsim : Interchangeable P c policy D R) (h : Alike D R r r') (expired : Nat → Bool)
    (solved : Bool) :
    Alike D R (r.outerStep P c expired solved).1 (r'.outerStep P (c.withPolicy policy) expired solved).1 ∧
      (r'.outerStep P (c.withPolicy policy) expired solved).2.1 = (r.outerStep P c expired solved).2.1 := by
  obtain ⟨heq, hnewton⟩ := h
  have hgrown : (r'.growPenalties (c.withPolicy policy)).1 = (r.growPenalties c).1 ∧ D (r.growPenalties c).1 := by
    constructor
    · rw [heq]
      simp only [Run.growPenalties, hnewton.penalty]
      rfl
    · unfold Run.growPenalties
      simp only
      split
      · exact hsim.grow _ _ _ hnewton.inside
      · exact hnewton.inside
  have hpenalty : ((r'.growPenalties (c.withPolicy policy)).1.lowerProximal solved (c.withPolicy policy)).1 =
      ((r.growPenalties c).1.lowerProximal solved c).1 := by
    rw [hgrown.1]
    rfl
  refine ⟨⟨?_, ?_⟩, ?_⟩
  · rw [heq]
    rfl
  · exact { penalty := hpenalty, inside := hsim.lowerProximal _ solved hgrown.2, engines := hnewton.engines }
  · rw [heq]
    rfl

theorem Alike.innerStep (hsim : Interchangeable P c policy D R) (h : Alike D R r r') :
    Alike D R (r.innerStep P c).1 (r'.innerStep P (c.withPolicy policy)).1 ∧
      (r'.innerStep P (c.withPolicy policy)).2.1 = (r.innerStep P c).2.1 := by
  obtain ⟨heq, hnewton⟩ := h
  obtain ⟨halike, hout⟩ := hnewton.step hsim r.point r.evaluation
  have hpoint : r'.point = r.point ∧ r'.evaluation = r.evaluation := by
    rw [heq]
    exact ⟨rfl, rfl⟩
  unfold Run.innerStep
  rw [hpoint.1, hpoint.2]
  generalize r.newton.step P r.point r.evaluation c = result at halike hout
  generalize r'.newton.step P r.point r.evaluation (c.withPolicy policy) = result' at halike hout
  obtain ⟨t, outcome, log⟩ := result
  obtain ⟨t', outcome', log'⟩ := result'
  cases (hout : outcome' = outcome)
  rw [heq]
  cases outcome with
  | error err => exact ⟨⟨rfl, halike⟩, rfl⟩
  | ok reached => exact ⟨⟨rfl, halike⟩, rfl⟩

theorem Alike.pass (hsim : Interchangeable P c policy D R) (h : Alike D R r r') (expired : Nat → Bool) :
    Alike D R (r.pass P c expired).1 (r'.pass P (c.withPolicy policy) expired).1 ∧
      (r'.pass P (c.withPolicy policy) expired).2.1 = (r.pass P c expired).2.1 := by
  have hmeasure := h.measure P
  have heq := hmeasure.1
  have hverdict : (r'.measure P).finished P (c.withPolicy policy) = (r.measure P).finished P c := by
    rw [heq]
    rfl
  have hcounts : (r'.measure P).info = (r.measure P).info ∧ (r'.measure P).iterIn = (r.measure P).iterIn := by
    rw [heq]
    exact ⟨rfl, rfl⟩
  have hsolved : (r'.measure P).residuals.isStationary (r'.measure P).epsAbsIn (r'.measure P).epsRelIn =
      (r.measure P).residuals.isStationary (r.measure P).epsAbsIn (r.measure P).epsRelIn := by
    rw [heq]
  unfold Run.pass
  simp only [hverdict, hcounts, hsolved]
  cases (r.measure P).finished P c with
  | some status => exact ⟨hmeasure, rfl⟩
  | none =>
      simp only [show (c.withPolicy policy).maxIter = c.maxIter from rfl,
        show (c.withPolicy policy).innerMaxIter = c.innerMaxIter from rfl]
      split
      · exact ⟨hmeasure, rfl⟩
      · split
        · exact hmeasure.outerStep hsim expired _
        · exact hmeasure.innerStep hsim

theorem Alike.iterate (hsim : Interchangeable P c policy D R) (expired : Nat → Bool) (passes : Nat)
    (h : Alike D R r r') :
    Alike D R (Run.iterate P c expired passes r).1 (Run.iterate P (c.withPolicy policy) expired passes r').1 ∧
      (Run.iterate P (c.withPolicy policy) expired passes r').2.1 = (Run.iterate P c expired passes r).2.1 := by
  induction passes generalizing r r' with
  | zero => exact ⟨h, rfl⟩
  | succ passes ih =>
      obtain ⟨halike, hout⟩ := h.pass hsim expired
      unfold Run.iterate
      generalize r.pass P c expired = result at halike hout
      generalize r'.pass P (c.withPolicy policy) expired = result' at halike hout
      obtain ⟨t, outcome, signals⟩ := result
      obtain ⟨t', outcome', signals'⟩ := result'
      cases (hout : outcome' = outcome)
      cases outcome with
      | some status => exact ⟨halike, rfl⟩
      | none => exact ih halike

theorem Alike.complete (hsim : Interchangeable P c policy D R) (h : Alike D R r r') (expired : Nat → Bool) :
    Alike D R (r.complete P c expired).1 (r'.complete P (c.withPolicy policy) expired).1 ∧
      (r'.complete P (c.withPolicy policy) expired).2.1 = (r.complete P c expired).2.1 := by
  unfold Run.complete
  rw [show (c.withPolicy policy).nonconvex = c.nonconvex from rfl]
  split
  · exact h.iterate hsim expired (passLimit c)
  · obtain ⟨heq, hnewton⟩ := h
    have hevaluate : r'.evaluate P = { r.evaluate P with newton := r'.newton } := by
      rw [heq]
      simp only [Run.evaluate, hnewton.penalty]
    obtain ⟨halike, hout⟩ := hnewton.factorInitial hsim (r.evaluate P).evaluation.active
    simp only [hevaluate]
    rw [show (r.evaluate P).newton = r.newton from rfl]
    generalize r.newton.factorInitial P (r.evaluate P).evaluation.active c = result at halike hout
    generalize r'.newton.factorInitial P (r.evaluate P).evaluation.active (c.withPolicy policy) = result' at halike hout
    obtain ⟨t, outcome, log⟩ := result
    obtain ⟨t', outcome', log'⟩ := result'
    cases (hout : outcome' = outcome)
    cases outcome with
    | error err => exact ⟨⟨rfl, halike⟩, rfl⟩
    | ok u =>
        have hstart : Alike D R { r.evaluate P with newton := t } { r.evaluate P with newton := t' } := ⟨rfl, halike⟩
        exact hstart.iterate hsim expired (passLimit c)

def withEvaluation (r : Run T n m) (e : Evaluation T n m) : Run T n m := { r with evaluation := e }

/-- A run begins by evaluating its point. It does not read the evaluation that it starts with. -/
theorem complete_withEvaluation (hc : 0 < c.maxOuterIter) (r : Run T n m) (e : Evaluation T n m)
    (P : ScaledProgram T n m) (expired : Nat → Bool) :
    (r.withEvaluation e).complete P c expired = r.complete P c expired := by
  obtain ⟨passes, hpasses⟩ : ∃ passes, passLimit c = passes + 1 :=
    Nat.exists_eq_succ_of_ne_zero (Nat.add_pos_right _ hc).ne'
  unfold Run.complete
  rw [hpasses]
  split
  · rfl
  · rfl

end Run

/-! ## Solvers -/

theorem Run.reduced_withPolicy (r : Run T n m) (newton : NewtonState T n m) (P : ScaledProgram T n m) (c : Settings T)
    (policy : Policy T) (status : Status) :
    Run.reduced { r with newton } P (c.withPolicy policy) status = r.reduced P c status := rfl

/-- The engine leaves no trace in the results. -/
theorem Outcome.results_newton (r : Run T n m) (newton : NewtonState T n m) (P : ScaledProgram T n m) (status : Status)
    (signals signals' : List (Signal T)) :
    ({ run := { r with newton }, info := Solver.finalInfo P { r with newton } status, signals } : Outcome T n m).results P =
      ({ run := r, info := Solver.finalInfo P r status, signals := signals' } : Outcome T n m).results P := rfl

/-- Two solvers of one program from one starting point report the same results, if their engines are interchangeable. -/
theorem Solver.results_eq_of_interchangeable {S S' : Solver T n m} (hprogram : S'.program = S.program)
    (hsettings : S'.settings = S.settings.withPolicy policy) (hx : S'.xStart = S.xStart) (hy : S'.yStart = S.yStart)
    (hlambda : S'.lambdaMin = S.lambdaMin) (hc : S.settings.validate = .ok ())
    (hsim : Interchangeable S.program S.settings policy D R) (hinside : D S.start.newton.penalty)
    (hengines : R S.engine.invalidate S'.engine.invalidate) (expired : Nat → Bool) :
    (S'.run expired).2.results S'.program = (S.run expired).2.results S.program := by
  have hfloor : S'.rhoFloor = S.rhoFloor := by
    simp only [Solver.rhoFloor, hlambda, hsettings]
    rfl
  have hinitial : Penalty.initial m (S.settings.withPolicy policy) S.rhoFloor =
      Penalty.initial m S.settings S.rhoFloor := rfl
  have hpenalty : S'.start.newton.penalty = S.start.newton.penalty := by
    simp only [Solver.start, hfloor, hsettings, hinitial]
  have hlimit : 0 < (S.settings.withPolicy policy).maxOuterIter := Settings.maxOuterIter_pos (c := S.settings) hc
  have habs : (S.settings.withPolicy policy).epsAbsIn = S.settings.epsAbsIn ∧
      (S.settings.withPolicy policy).epsAbs = S.settings.epsAbs := ⟨rfl, rfl⟩
  have hrel : (S.settings.withPolicy policy).epsRelIn = S.settings.epsRelIn ∧
      (S.settings.withPolicy policy).epsRel = S.settings.epsRel := ⟨rfl, rfl⟩
  have hstart : Run.Alike D R S.start (S'.start.withEvaluation S.evaluation) := by
    refine ⟨?_, { penalty := hpenalty, inside := hinside, engines := hengines }⟩
    simp only [Run.withEvaluation, Solver.start, hprogram, hx, hy, hfloor, hsettings, hinitial, habs, hrel]
  obtain ⟨⟨heq, -⟩, hout⟩ := hstart.complete hsim expired
  rw [Run.complete_withEvaluation hlimit] at heq hout
  unfold Solver.run
  simp only [hprogram, hsettings, hout]
  generalize S.start.complete S.program S.settings expired = result at heq
  generalize S'.start.complete S.program (S.settings.withPolicy policy) expired = result' at heq
  rw [heq, Run.reduced_withPolicy]
  exact Outcome.results_newton ..

end AugLag
