import AugLag.Proofs.Solver.Backtracking
import AugLag.Proofs.Solver.Descent

/-!
# Full Newton steps

Along the Newton direction the parabola of a search falls as steeply as it is curved, if no row is active. So the exact
step is the full one, as long as no row leaves its bounds on the way, and the first trial takes it.
-/

namespace AugLag

open scoped Matrix

variable {K : Type} [ExactScalar K] {n m : Nat} {P : ScaledProgram K n m} {c : Settings K}

/-- All bounds are absent. -/
def ScaledProgram.Unbounded (P : ScaledProgram K n m) : Prop :=
  ∀ i, P.lowerFinite.get i = false ∧ P.upperFinite.get i = false

instance (P : ScaledProgram K n m) : Decidable P.Unbounded := by
  unfold ScaledProgram.Unbounded
  infer_instance

/-! ## Steps without active rows -/

theorem hessian_of_inactive {Q A : SparseMatrix K} {active : Vector Bool m} (h : ∀ i, active.get i = false)
    (sigma : Vector K m) (rho : K) : hessian Q A n active sigma rho = proximal Q n rho := by
  have hzero : activePenalty active sigma = 0 := by
    funext i
    simp [activePenalty, h i]
  simp [hessian, hzero]

theorem dotProduct_proximal (Q : SparseMatrix K) (rho : K) (x : Fin n → K) :
    x ⬝ᵥ proximal Q n rho *ᵥ x = x ⬝ᵥ Q.symMatrix n *ᵥ x + rho * ∑ j, x j ^ 2 := by
  rw [proximal, Matrix.add_mulVec, dotProduct_add, Matrix.smul_mulVec, dotProduct_smul, smul_eq_mul, Matrix.one_mulVec]
  simp only [dotProduct, pow_two]

namespace NewtonState

variable {s : NewtonState K n m} {p : Point K n m}

theorem inactive_of_inside {sigma : Vector K m} (rho : K) {i : Fin m}
    (hlower : P.bmin.get i ≤ (Evaluation.shifted p sigma).get i)
    (hupper : (Evaluation.shifted p sigma).get i ≤ P.bmax.get i) :
    (Evaluation.ofPoint P p sigma rho).active.get i = false := by
  show (Vector.ofFn _).get i = false
  rw [Vec.get_ofFn]
  simp only [Bool.or_eq_false_iff, decide_eq_false_iff_not, not_lt]
  exact ⟨hlower, hupper⟩

/-- A full step that leaves the rows within their bounds meets no piece on the way. -/
theorem idle_searchAlong (hroots : ExactRoots K) (hpos : s.penalty.Positive) {d : Vector K n}
    (hinside : ∀ i, P.bmin.get i ≤ (Evaluation.shifted p s.penalty.sigma).get i ∧
      (Evaluation.shifted p s.penalty.sigma).get i ≤ P.bmax.get i)
    (hreached : ∀ i, P.bmin.get i ≤ (Evaluation.shifted p s.penalty.sigma).get i + (P.A.toMatrix m n *ᵥ d.get) i ∧
      (Evaluation.shifted p s.penalty.sigma).get i + (P.A.toMatrix m n *ᵥ d.get) i ≤ P.bmax.get i) :
    (s.searchAlong P p d).Idle := by
  refine LineSearch.idle_of_inside hroots hpos fun i τ hτ => ?_
  rcases hτ with rfl | rfl
  · rw [target_searchAlong]
    exact hinside i
  · have htarget : (s.searchAlong P p d).target 1 i =
        (Evaluation.shifted p s.penalty.sigma).get i + (P.A.toMatrix m n *ᵥ d.get) i := by
      rw [← target_searchAlong d i, ← get_mulAdd_one P.A d, LineSearch.target, LineSearch.target]
      show _ + _ * (P.A.mulAdd (Vec.zeros m) d 1 0).get i + _ = _
      ring
    rw [htarget]
    exact hreached i

/-- A search that meets no piece along the Newton direction ends at the full step. -/
theorem stepLength_of_idle {d : Vector K n} (hidle : (s.searchAlong P p d).Idle) (hQ : P.Q.Upper) (hn : P.Q.cols = n)
    (harmijo : c.linesearchArmijo ≤ 1 / 2)
    (hslope : (s.searchAlong P p d).initialSlope.b = -(d.get ⬝ᵥ AugLag.proximal P.Q n s.penalty.rho *ᵥ d.get))
    (hfall : (s.searchAlong P p d).initialSlope.b < 0) :
    s.stepLength P p c d = if c.linesearchMaxBacktrack = 0 then 0 else 1 := by
  have heta : (s.searchAlong P p d).eta = d.get ⬝ᵥ AugLag.proximal P.Q n s.penalty.rho *ᵥ d.get := by
    rw [eta_searchAlong hQ hn, dotProduct_proximal]
  have hbeta : (s.searchAlong P p d).beta = -(s.searchAlong P p d).eta := by rw [← hidle.initialSlope_eq, hslope, heta]
  have hpos : 0 < (s.searchAlong P p d).eta := by
    rw [hidle.initialSlope_eq, hbeta] at hfall
    exact neg_lt_zero.mp hfall
  rw [stepLength, hidle.search?_eq hpos hbeta harmijo]
  split
  · rfl
  · rfl

theorem stepLength_of_flat {d : Vector K n} (hflat : ¬(s.searchAlong P p d).initialSlope.b < 0) :
    s.stepLength P p c d = 0 := by
  rw [stepLength, LineSearch.search?]
  simp only [if_neg hflat]
  rfl

/-- A Newton step on a convex problem from a point where no row is active. It goes along the solution of the system. If
no row leaves its bounds on the way, it goes in full unless the limit leaves no trial or there is nowhere to go. -/
theorem Safe.step_of_inactive (hs : s.Safe P) (hconvex : PosSemidef (P.Q.symMatrix n)) (hQ : P.Q.Upper)
    (hn : P.Q.cols = n) (h : P.Bounded)
    (hinside : ∀ i, P.bmin.get i ≤ (Evaluation.shifted p s.penalty.sigma).get i ∧
      (Evaluation.shifted p s.penalty.sigma).get i ≤ P.bmax.get i)
    (harmijo : c.linesearchArmijo ≤ 1 / 2) {g : Fin n → K}
    (hg : g = (Evaluation.ofPoint P p s.penalty.sigma s.penalty.rho).gradient.get) :
    ∃ (s' : NewtonState K n m) (d : Vector K n) (τ : K) (log : List (Event K)),
      s.step P p (Evaluation.ofPoint P p s.penalty.sigma s.penalty.rho) c = (s', .ok (τ, moved P p τ d), log) ∧
        AugLag.proximal P.Q n s.penalty.rho *ᵥ d.get = -g ∧ (g = 0 → d.get = 0 ∧ τ = 0) ∧
          (g ≠ 0 → (s.searchAlong P p d).Idle → τ = if c.linesearchMaxBacktrack = 0 then 0 else 1) := by
  generalize he : Evaluation.ofPoint P p s.penalty.sigma s.penalty.rho = e at hg ⊢
  have hfactor := hs.factor_eq (c := c) hconvex e.active
  have hserves := update_spec hs.toReady (hs.update_eq_ok hconvex e.active c)
  have hready := (hs.update e.active c).toReady
  have hrho : (s.update P e.active c).1.penalty.rho = s.penalty.rho := rfl
  have hinactive : ∀ i, e.active.get i = false := fun i => he ▸ inactive_of_inside _ (hinside i).1 (hinside i).2
  have hspares : ∀ i, P.Spares ((Evaluation.shifted p s.penalty.sigma).get i) i := fun i =>
    ⟨fun _ => (hinside i).1, fun _ => (hinside i).2⟩
  generalize hd : (s.update P e.active c).1.stepDirection p e false = d
  obtain ⟨hposDef, hsolves⟩ := hready.mulVec_stepDirection (p := p) (e := e) hserves false
  obtain ⟨hslope, hform, hfalls⟩ :=
    hs.toReady.slope_of_factor h hspares hfactor (hd.symm.trans (he ▸ rfl)) (hg.trans (he ▸ rfl))
  have hgradient : ((s.update P e.active c).1.stepGradient p e false).get = g := hg.symm
  obtain ⟨log, hstep⟩ := step_of_factor hfactor p hd.symm
  rw [hessian_of_inactive hinactive, hrho] at hposDef hsolves hform
  rw [hd, hgradient] at hsolves
  refine ⟨_, d, _, log, hstep, hsolves, fun hzero => ⟨?_, ?_⟩, fun hne hidle => ?_⟩
  · apply hposDef.eq_zero
    rw [hsolves, hzero, neg_zero, dotProduct_zero]
  · apply stepLength_of_flat
    rw [hslope, hzero, dotProduct_zero]
    exact lt_irrefl 0
  · exact stepLength_of_idle hidle hQ hn harmijo hform (hfalls hne)

/-- On a problem without bounds nothing is ever in the way. -/
theorem Safe.step_of_unbounded (hs : s.Safe P) (hconvex : PosSemidef (P.Q.symMatrix n)) (hQ : P.Q.Upper)
    (hn : P.Q.cols = n) (h : P.Bounded) (hfree : P.Unbounded)
    (hinside : ∀ i, |(Evaluation.shifted p s.penalty.sigma).get i| ≤ P.limit)
    (harmijo : c.linesearchArmijo ≤ 1 / 2) {g : Fin n → K}
    (hg : g = (Evaluation.ofPoint P p s.penalty.sigma s.penalty.rho).gradient.get) :
    ∃ (s' : NewtonState K n m) (d : Vector K n) (τ : K) (log : List (Event K)),
      s.step P p (Evaluation.ofPoint P p s.penalty.sigma s.penalty.rho) c = (s', .ok (τ, moved P p τ d), log) ∧
        AugLag.proximal P.Q n s.penalty.rho *ᵥ d.get = -g ∧ (g = 0 → d.get = 0 ∧ τ = 0) ∧
          (g ≠ 0 → τ = if c.linesearchMaxBacktrack = 0 then 0 else 1) := by
  have hspares : ∀ i, P.Spares ((Evaluation.shifted p s.penalty.sigma).get i) i := fun i => h.spares fun _ => hinside i
  obtain ⟨s', d, τ, log, hstep, hsolves, hrest, hmoves⟩ := hs.step_of_inactive hconvex hQ hn h
    (fun i => ⟨(hspares i).lower (hfree i).1, (hspares i).upper (hfree i).2⟩) harmijo hg
  have hidle : (s.searchAlong P p d).Idle :=
    LineSearch.idle_of_absent (fun i => (hfree i).1) fun i => (hfree i).2
  exact ⟨s', d, τ, log, hstep, hsolves, hrest, fun hne => hmoves hne hidle⟩

end NewtonState
end AugLag
