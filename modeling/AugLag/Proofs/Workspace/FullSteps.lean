import AugLag.Proofs.Workspace.Descent

/-!
# Full Newton steps

The limit on backtracking counts the trials of a search, with the exact step among them. So the full step that a convex
problem without bounds asks for is taken under every limit but zero: with a limit of zero the solver never moves.
-/

namespace AugLag

open scoped Matrix

variable {K : Type} {n m : Nat}

/-! ## Steps of a solve -/

namespace Workspace.Reachable

variable [ExactMachine K] {w : Workspace K} {S : Solver K n m} {expired : Nat → Bool} {r : Run K n m}

/-- On a convex problem without bounds every Newton step of a solve ends at the point that its system asks for, if the
limit leaves a trial. Without a trial it ends where it began. -/
theorem newton_step_of_unbounded [Elimination.Rule] (h : Reachable w) (hw : w.prepared = some ⟨n, m, S⟩)
    (horder : NewtonEngine.PatternOrdered S.program.Q S.program.A S.settings.factorizationMethod)
    (hconvex : PosSemidef (S.program.Q.symMatrix n)) (hfree : S.program.Unbounded)
    (harmijo : S.settings.linesearchArmijo ≤ 1 / 2) (hr : S.start.Begins S.program S.settings expired r)
    (hinside : ∀ i, |r.shifted i| ≤ S.program.limit) :
    ∃ (s' : NewtonState K n m) (τ : K) (p' : Point K n m) (log : List (Event K)) (d : Fin n → K),
      (r.measure S.program).newton.step S.program r.point (r.measure S.program).evaluation S.settings =
        (s', .ok (τ, p'), log) ∧
      proximal S.program.Q n r.newton.penalty.rho *ᵥ d = -(r.measure S.program).evaluation.gradient.get ∧
      (S.settings.linesearchMaxBacktrack ≠ 0 →
        p'.x.get = r.point.x.get + d ∧ ((r.measure S.program).evaluation.gradient.get ≠ 0 → τ = 1)) ∧
      (S.settings.linesearchMaxBacktrack = 0 → p'.x.get = r.point.x.get ∧ τ = 0) := by
  obtain ⟨hmaintained, hconsistent⟩ := h.consistent _ hw
  have hdata := hmaintained.data
  have hsafe : r.newton.Safe S.program :=
    hr.safe hconvex hmaintained.settings (Solver.safe_start hmaintained.settings (hconsistent horder))
  obtain ⟨s', d, τ, log, hstep, hsolves, hrest, hmoves⟩ :=
    hsafe.step_of_unbounded hconvex hdata.upper hdata.cost_cols (h.bounded _ hw) hfree hinside harmijo rfl
  have hreached := NewtonState.moved_x S.program r.point τ d
  refine ⟨s', τ, _, log, d.get, hstep, hsolves, fun hlimit => ?_, fun hlimit => ?_⟩
  · rw [hreached]
    by_cases hzero : (r.measure S.program).evaluation.gradient.get = 0
    · obtain ⟨hd, -⟩ := hrest hzero
      rw [hd, smul_zero]
      exact ⟨rfl, fun hne => absurd hzero hne⟩
    · have hτ := hmoves hzero
      rw [if_neg hlimit] at hτ
      rw [hτ, one_smul]
      exact ⟨rfl, fun _ => rfl⟩
  · have hτ : τ = 0 := by
      by_cases hzero : (r.measure S.program).evaluation.gradient.get = 0
      · exact (hrest hzero).2
      · rw [hmoves hzero, if_pos hlimit]
    rw [hreached, hτ, zero_smul, add_zero]
    exact ⟨rfl, rfl⟩

/-- The limit counts the trials. A search that falls takes the first sufficient of that many trials, and a step of length
zero if there is none. So a Newton step on a convex problem without bounds is taken in full under every limit but zero. -/
theorem limit_counts_trials [Elimination.Rule] :
    (∀ {m : Nat} (L : LineSearch K m) (c : Settings K), c.validate = .ok () → L.initialSlope.b < 0 →
      (∀ τ, L.search? c = some τ ↔ ∃ k < c.linesearchMaxBacktrack, L.FirstSufficient c k ∧ τ = L.trial c k) ∧
        ((L.search? c).getD 0 = 0 ↔
          ∀ k < c.linesearchMaxBacktrack, L.sufficient c L.initialSlope.b (L.trial c k) = false)) ∧
    ∀ {n m : Nat} {w : Workspace K} {S : Solver K n m} {expired : Nat → Bool} {r : Run K n m},
      Reachable w → w.prepared = some ⟨n, m, S⟩ →
      NewtonEngine.PatternOrdered S.program.Q S.program.A S.settings.factorizationMethod →
      PosSemidef (S.program.Q.symMatrix n) → S.program.Unbounded → S.settings.linesearchArmijo ≤ 1 / 2 →
      S.start.Begins S.program S.settings expired r → (∀ i, |r.shifted i| ≤ S.program.limit) →
      ∃ (s' : NewtonState K n m) (τ : K) (p' : Point K n m) (log : List (Event K)) (d : Fin n → K),
        (r.measure S.program).newton.step S.program r.point (r.measure S.program).evaluation S.settings =
          (s', .ok (τ, p'), log) ∧
        proximal S.program.Q n r.newton.penalty.rho *ᵥ d = -(r.measure S.program).evaluation.gradient.get ∧
        (S.settings.linesearchMaxBacktrack ≠ 0 →
          p'.x.get = r.point.x.get + d ∧ ((r.measure S.program).evaluation.gradient.get ≠ 0 → τ = 1)) ∧
        (S.settings.linesearchMaxBacktrack = 0 → p'.x.get = r.point.x.get ∧ τ = 0) := by
  constructor
  · intro m L c hc hfall
    have hslope : L.slopeAt 0 < 0 := by rwa [L.slopeAt_zero]
    constructor
    · intro τ
      exact LineSearch.search?_eq_some_iff hslope
    · rw [LineSearch.getD_search?_eq_zero_iff (Settings.linesearchBacktrackStep_pos hc) hslope]
      exact LineSearch.search?_eq_none_iff hslope
  · intro n m w S expired r h hw horder hconvex hfree harmijo hr hinside
    exact newton_step_of_unbounded h hw horder hconvex hfree harmijo hr hinside

end Workspace.Reachable

namespace Sample

/-- The cost `½ x² - x` under a row whose bounds are both absent. -/
def valley : ProblemInput ℚ :=
  { Q := some (.dense 1 1 #[1])
    q := some #[-1]
    A := some (.dense 1 1 #[1])
    bmin := some #[-20]
    bmax := some #[20] }

def valleySettings (trials : Nat) : Settings ℚ :=
  { settings with scalingEnable := false, linesearchMaxBacktrack := trials }

/-- The search along `½ τ² - τ`, without rows. -/
def parabola : LineSearch ℚ 0 where
  eta := 1
  beta := -1
  Ax := Vec.zeros 0
  Ad := Vec.zeros 0
  y := Vec.zeros 0
  sigma := Vec.zeros 0
  bmin := Vec.zeros 0
  bmax := Vec.zeros 0
  lowerFinite := Vector.replicate 0 false
  upperFinite := Vector.replicate 0 false

/-- The first step of a solver is one for which the system is put in order, without bounds and away from the minimum. -/
structure Opens (S : Solver ℚ 1 1) (trials : Nat) : Prop where
  ordered : NewtonEngine.PatternOrdered S.program.Q S.program.A S.settings.factorizationMethod
  cost : ∀ i, S.program.Q.symMatrix 1 i i = 1
  unbounded : S.program.Unbounded
  armijo : S.settings.linesearchArmijo ≤ 1 / 2
  trials : S.settings.linesearchMaxBacktrack = trials
  convex : S.settings.nonconvex = false
  inside : ∀ i, |S.start.shifted i| ≤ S.program.limit
  gradient : ¬∀ i, (S.start.measure S.program).evaluation.gradient.get i = 0

instance (S : Solver ℚ 1 1) (trials : Nat) : Decidable (Opens S trials) :=
  decidable_of_iff (_ ∧ _ ∧ _ ∧ _ ∧ _ ∧ _ ∧ _ ∧ _)
    ⟨fun ⟨h₁, h₂, h₃, h₄, h₅, h₆, h₇, h₈⟩ => ⟨h₁, h₂, h₃, h₄, h₅, h₆, h₇, h₈⟩,
      fun h => ⟨h.ordered, h.cost, h.unbounded, h.armijo, h.trials, h.convex, h.inside, h.gradient⟩⟩

theorem Opens.posDef {S : Solver ℚ 1 1} {trials : Nat} (h : Opens S trials) :
    PosDef (S.program.Q.symMatrix 1) := by
  intro x hx
  have hne : x 0 ≠ 0 := by
    intro hzero
    apply hx
    funext i
    rw [Subsingleton.elim i 0, hzero]
    rfl
  simp only [dotProduct, Matrix.mulVec, Fin.sum_univ_one, h.cost, one_mul]
  exact mul_self_pos.mpr hne

def opens (trials : Nat) (w : Workspace ℚ) : Bool :=
  match w.prepared with
  | some ⟨1, 1, S⟩ => decide (Opens S trials)
  | _ => false

/-- A solve on the valley takes a first step. -/
theorem exists_begins (trials : Nat)
    (hopens : (Workspace.setup valley (valleySettings trials) 10).1.toOption.any (opens trials) = true) :
    ∃ (w : Workspace ℚ) (S : Solver ℚ 1 1) (r : Run ℚ 1 1),
      (Workspace.setup valley (valleySettings trials) 10).1 = .ok w ∧ w.prepared = some ⟨1, 1, S⟩ ∧ Opens S trials ∧
        S.start.Begins S.program S.settings (fun _ => false) r ∧ r.shifted = S.start.shifted ∧
          (r.measure S.program).evaluation = (S.start.measure S.program).evaluation := by
  cases hsetup : (Workspace.setup valley (valleySettings trials) 10).1 with
  | error e =>
      rw [hsetup] at hopens
      cases hopens
  | ok w =>
      rw [hsetup] at hopens
      have hw : opens trials w = true := hopens
      unfold opens at hw
      split at hw
      · next S hprepared =>
          have hS : Opens S trials := of_decide_eq_true hw
          obtain ⟨hmaintained, hconsistent⟩ := (Workspace.Reachable.setup hsetup).consistent _ hprepared
          have hsafe : (S.start.evaluate S.program).newton.Safe S.program :=
            Solver.safe_start hmaintained.settings (hconsistent hS.ordered)
          have hconvex : PosSemidef (S.program.Q.symMatrix 1) := hS.posDef.posSemidef
          have hbegins : S.start.Begins S.program S.settings (fun _ => false) _ := .factored hS.convex
            (hsafe.factorInitial_eq (c := S.settings) hconvex (S.start.evaluate S.program).evaluation.active)
          exact ⟨w, S, _, rfl, hprepared, hS, hbegins, rfl, rfl⟩
      · cases hw

end Sample

/-- With the limits by default the first step in the valley is a full one. -/
theorem Workspace.Reachable.limit_counts_trials_valley :
    ∃ (w : Workspace ℚ) (S : Solver ℚ 1 1) (r : Run ℚ 1 1) (s' : NewtonState ℚ 1 1) (p' : Point ℚ 1 1)
        (log : List (Event ℚ)) (d : Fin 1 → ℚ),
      (Workspace.setup Sample.valley (Sample.valleySettings 30) 10).1 = .ok w ∧ w.prepared = some ⟨1, 1, S⟩ ∧
        S.start.Begins S.program S.settings (fun _ => false) r ∧
        (r.measure S.program).newton.step S.program r.point (r.measure S.program).evaluation S.settings =
          (s', .ok (1, p'), log) ∧ p'.x.get = r.point.x.get + d := by
  obtain ⟨w, S, r, hsetup, hw, hS, hr, hshifted, hevaluation⟩ :=
    Sample.exists_begins 30 (by decide +kernel)
  obtain ⟨s', τ, p', log, d, hstep, -, hmoves, -⟩ := limit_counts_trials.2 (.setup hsetup) hw hS.ordered
    hS.posDef.posSemidef hS.unbounded hS.armijo hr (hshifted ▸ hS.inside)
  obtain ⟨hreached, hfull⟩ := hmoves (by rw [hS.trials]; decide)
  have hτ : τ = 1 := by
    apply hfull
    rw [hevaluation]
    exact fun hzero => hS.gradient (congrFun hzero)
  exact ⟨w, S, r, s', p', log, d, hsetup, hw, hr, hτ ▸ hstep, hreached⟩

/-- With a limit of zero the search does not try the exact step, though it is sufficient, and the solver stays where it
is, away from the minimum of a strictly convex problem without bounds. -/
theorem Workspace.Reachable.exact_step_untried :
    (∃ (L : LineSearch ℚ 0) (c : Settings ℚ), c.validate = .ok () ∧ L.initialSlope.b < 0 ∧
      c.linesearchMaxBacktrack = 0 ∧ L.FirstSufficient c 0 ∧ L.search? c = none) ∧
    ∃ (w : Workspace ℚ) (S : Solver ℚ 1 1) (r : Run ℚ 1 1) (s' : NewtonState ℚ 1 1) (p' : Point ℚ 1 1)
        (log : List (Event ℚ)),
      (Workspace.setup Sample.valley (Sample.valleySettings 0) 10).1 = .ok w ∧ w.prepared = some ⟨1, 1, S⟩ ∧
        PosDef (S.program.Q.symMatrix 1) ∧ S.program.Unbounded ∧ S.settings.linesearchArmijo ≤ 1 / 2 ∧
        S.start.Begins S.program S.settings (fun _ => false) r ∧
        (r.measure S.program).evaluation.gradient.get ≠ 0 ∧
        (r.measure S.program).newton.step S.program r.point (r.measure S.program).evaluation S.settings =
          (s', .ok (0, p'), log) ∧ p'.x.get = r.point.x.get := by
  constructor
  · refine ⟨Sample.parabola, Sample.valleySettings 0, by decide +kernel, by decide +kernel, rfl, ?_, rfl⟩
    have hidle : Sample.parabola.Idle := LineSearch.idle_of_absent nofun nofun
    exact (hidle.firstSufficient_zero one_pos rfl (by decide +kernel)).2
  · obtain ⟨w, S, r, hsetup, hw, hS, hr, hshifted, hevaluation⟩ :=
      Sample.exists_begins 0 (by decide +kernel)
    obtain ⟨s', τ, p', log, d, hstep, -, -, hstays⟩ := newton_step_of_unbounded (.setup hsetup) hw hS.ordered
      hS.posDef.posSemidef hS.unbounded hS.armijo hr (hshifted ▸ hS.inside)
    obtain ⟨hreached, rfl⟩ := hstays hS.trials
    refine ⟨w, S, r, s', p', log, hsetup, hw, hS.posDef, hS.unbounded, hS.armijo, hr, ?_, hstep, hreached⟩
    rw [hevaluation]
    exact fun hzero => hS.gradient (congrFun hzero)

end AugLag
