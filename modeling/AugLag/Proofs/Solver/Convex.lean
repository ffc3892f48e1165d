import AugLag.Proofs.Problem.Scaled
import AugLag.Proofs.Solver.Ready

/-!
# Convex problems

If the cost is convex, then every Newton system of a solve is positive definite, since penalties and proximal weights
are positive throughout (`NewtonState.Safe`). No update is refused, the proximal weight is never raised, and the solve
does not end for want of a factorization.
-/

namespace AugLag

open scoped Matrix

variable {K : Type} [ExactScalar K] {n m : Nat}

/-! ## Convexity -/

theorem posDef_proximal {Q : SparseMatrix K} {rho : K} (hQ : PosSemidef (Q.symMatrix n)) (hrho : 0 < rho) :
    PosDef (proximal Q n rho) := by
  intro x hx
  rw [proximal, Matrix.add_mulVec, dotProduct_add, Matrix.smul_mulVec, dotProduct_smul, smul_eq_mul]
  exact add_pos_of_nonneg_of_pos (hQ x) (mul_pos hrho (posDef_one x hx))

theorem posDef_hessian {Q A : SparseMatrix K} {active : Vector Bool m} {sigma : Vector K m} {rho : K}
    (h : PosDef (proximal Q n rho)) (hsigma : ∀ r, 0 < sigma.get r) : PosDef (hessian Q A n active sigma rho) := by
  intro x hx
  rw [← AugmentedSystem.condensed_eq_hessian, Saddle.condensed_form]
  refine add_pos_of_pos_of_nonneg (h x hx) (Finset.sum_nonneg fun r _ => ?_)
  exact mul_nonneg (inv_pos.mpr (AugmentedSystem.activeWeights_pos hsigma r)).le (mul_self_nonneg _)

theorem ScaledProgram.IsScaling.cost_form {S : ScaledProgram K n m} {P : PosedProblem K n m} {limit : K}
    (h : S.IsScaling P limit) (x : Fin n → K) : x ⬝ᵥ S.Q.symMatrix n *ᵥ x =
      S.scaling.c * ((fun j => x j * S.scaling.d.get j) ⬝ᵥ P.Q *ᵥ fun j => x j * S.scaling.d.get j) := by
  have hc := h.c_pos.ne'
  rw [h.mulVec_cost]
  simp only [dotProduct, Finset.mul_sum]
  refine Finset.sum_congr rfl fun j _ => ?_
  have hd := (h.d_pos j).ne'
  rw [h.dinv_eq]
  field_simp

/-- Scaling does not change whether a cost is convex. -/
theorem ScaledProgram.IsScaling.posSemidef {S : ScaledProgram K n m} {P : PosedProblem K n m} {limit : K}
    (h : S.IsScaling P limit) (hQ : PosSemidef P.Q) : PosSemidef (S.Q.symMatrix n) := by
  intro x
  rw [h.cost_form]
  exact mul_nonneg h.c_pos.le (hQ _)

variable {P : ScaledProgram K n m} {c : Settings K}

/-! ## Proximal weights -/

namespace Penalty

/-- The proximal weight is positive, and so is the floor that it does not fall below. -/
structure Proximal (p : Penalty K m) : Prop where
  floor_pos : 0 < p.rhoFloor
  floor_le : p.rhoFloor ≤ p.rho

theorem Proximal.rho_pos {p : Penalty K m} (h : p.Proximal) : 0 < p.rho := h.floor_pos.trans_le h.floor_le

theorem proximal_initial {rhoFloor : K} (hfloor : 0 < rhoFloor) : (Penalty.initial m c rhoFloor).Proximal := by
  refine ⟨hfloor, ?_⟩
  simp only [Penalty.initial, Scalar.max_eq_max]
  split
  · exact le_max_right _ _
  · exact le_rfl

theorem rho_growRow {T : Type} [Scalar T] {c : Settings T} (scale : T) (acc : Penalty T m × List Nat) (i : Nat)
    (v previous : T) :
    (growRow c scale acc i v previous).1.rho = acc.1.rho ∧
      (growRow c scale acc i v previous).1.rhoFloor = acc.1.rhoFloor := by
  unfold growRow
  simp only
  split
  · exact ⟨rfl, rfl⟩
  · exact ⟨rfl, rfl⟩

theorem rho_grow {T : Type} [Scalar T] {c : Settings T} (p : Penalty T m) (violation previous : Array T) :
    (p.grow violation previous c).1.rho = p.rho ∧ (p.grow violation previous c).1.rhoFloor = p.rhoFloor := by
  have hfold : ∀ (rows : List (Nat × T × T)) (acc : Penalty T m × List Nat),
      (rows.foldl (fun acc r => growRow c (violationScale violation) acc r.1 r.2.1 r.2.2) acc).1.rho = acc.1.rho ∧
        (rows.foldl (fun acc r => growRow c (violationScale violation) acc r.1 r.2.1 r.2.2) acc).1.rhoFloor =
          acc.1.rhoFloor := by
    intro rows
    induction rows with
    | nil => exact fun acc => ⟨rfl, rfl⟩
    | cons r rows ih =>
        intro acc
        obtain ⟨hrho, hfloor⟩ := ih (growRow c (violationScale violation) acc r.1 r.2.1 r.2.2)
        obtain ⟨hrho', hfloor'⟩ := rho_growRow (c := c) (violationScale violation) acc r.1 r.2.1 r.2.2
        exact ⟨hrho.trans hrho', hfloor.trans hfloor'⟩
  exact hfold _ (p, [])

theorem Proximal.lowerProximal (hc : c.validate = .ok ()) {p : Penalty K m} (h : p.Proximal) (solved : Bool) :
    (p.lowerProximal solved c).1.Proximal ∧ (p.lowerProximal solved c).1.rho ≤ p.rho := by
  unfold Penalty.lowerProximal
  split
  · exact ⟨h, le_rfl⟩
  · have hshrink : p.rho * c.proximalShrink ≤ p.rho :=
      mul_le_of_le_one_right h.rho_pos.le (Settings.proximalShrink_le_one hc)
    refine ⟨⟨h.floor_pos, ?_⟩, ?_⟩
    · simp only [Scalar.max_eq_max]
      exact le_max_right _ _
    · simp only [Scalar.max_eq_max]
      exact max_le hshrink h.floor_le

end Penalty

/-! ## Newton steps -/

namespace NewtonState

/-- The engine can be asked for any active set, under positive penalties and a positive proximal weight. -/
structure Safe (s : NewtonState K n m) (P : ScaledProgram K n m) : Prop extends Ready s P where
  proximal : s.penalty.Proximal

variable {s : NewtonState K n m}

/-- A cost that is convex with the proximal weight is factored under any active set. -/
theorem Ready.update_eq_ok (h : s.Ready P) (hproximal : PosDef (AugLag.proximal P.Q n s.penalty.rho))
    (active : Vector Bool m) (c : Settings K) : (s.update P active c).2.1 = .ok () := by
  obtain ⟨-, -, hreduced, haugmented⟩ := h.consistent.answer_spec (h.positivePenalties active) c
  cases hengine : s.engine with
  | augmented S => exact haugmented S hengine hproximal
  | reduced S => exact (hreduced S hengine).mpr (posDef_hessian hproximal h.positive)

/-- What a convex problem asks for is answered. -/
theorem Safe.update_eq_ok (h : s.Safe P) (hQ : PosSemidef (P.Q.symMatrix n)) (active : Vector Bool m)
    (c : Settings K) : (s.update P active c).2.1 = .ok () :=
  h.toReady.update_eq_ok (posDef_proximal hQ h.proximal.rho_pos) active c

theorem Safe.update (h : s.Safe P) (active : Vector Bool m) (c : Settings K) : (s.update P active c).1.Safe P :=
  { h.toReady.update active c with proximal := h.proximal }

/-- A factorization succeeds at once, and leaves the penalties alone. -/
theorem Safe.factor_eq (h : s.Safe P) (hQ : PosSemidef (P.Q.symMatrix n)) (active : Vector Bool m) :
    s.factor P active c = ((s.update P active c).1, .ok false, (s.update P active c).2.2) := by
  have hok := h.update_eq_ok hQ active c
  have hretries : factorWithRetries P active c c.maxFactorizationRetries 0 s =
      ((s.update P active c).1, .ok 0, (s.update P active c).2.2) := by
    unfold factorWithRetries
    simp only [hok]
  unfold factor
  simp only [hretries]

theorem Safe.factorInitial_eq (h : s.Safe P) (hQ : PosSemidef (P.Q.symMatrix n)) (active : Vector Bool m) :
    s.factorInitial P active c = ((s.update P active c).1, .ok (), (s.update P active c).2.2) := by
  unfold factorInitial
  simp only [h.update_eq_ok hQ active c]

theorem Safe.step (h : s.Safe P) (hQ : PosSemidef (P.Q.symMatrix n)) (p : Point K n m) (e : Evaluation K n m) :
    (s.step P p e c).1 = (s.update P e.active c).1 ∧ ∃ reached, (s.step P p e c).2.1 = .ok reached := by
  unfold NewtonState.step
  rw [h.factor_eq hQ]
  simp only
  split
  · exact ⟨rfl, _, rfl⟩
  · exact ⟨rfl, _, rfl⟩

end NewtonState

/-! ## All updates of a solve -/

/-- The states in which a factorization updates its engine: the first one, and after every failure one with a raised
weight as long as tries are left. -/
inductive NewtonState.Tries (P : ScaledProgram K n m) (active : Vector Bool m) (c : Settings K) :
    Nat → NewtonState K n m → NewtonState K n m → Prop
  | first {tries : Nat} {s : NewtonState K n m} : Tries P active c tries s s
  | again {tries : Nat} {s s' : NewtonState K n m} {e : NewtonError} : (s.update P active c).2.1 = .error e →
      Tries P active c tries
        { (s.update P active c).1 with penalty := (s.update P active c).1.penalty.regularize c } s' →
      Tries P active c (tries + 1) s s'

/-- In a convex problem the first update is the only one. -/
theorem NewtonState.Tries.eq_of_safe {active : Vector Bool m} {tries : Nat} {s s' : NewtonState K n m}
    (h : Tries P active c tries s s') (hQ : PosSemidef (P.Q.symMatrix n)) (hs : s.Safe P) : s' = s := by
  cases h with
  | first => rfl
  | again herror _ =>
      rw [hs.update_eq_ok hQ] at herror
      cases herror

/-- The runs with which the passes of a solve begin. -/
inductive Run.Begins (P : ScaledProgram K n m) (c : Settings K) (expired : Nat → Bool) (start : Run K n m) :
    Run K n m → Prop
  | unfactored : c.nonconvex = true → Begins P c expired start start
  | factored {newton : NewtonState K n m} {log : List (Event K)} : c.nonconvex = false →
      (start.evaluate P).newton.factorInitial P (start.evaluate P).evaluation.active c = (newton, .ok (), log) →
      Begins P c expired start { start.evaluate P with newton }
  | next {r : Run K n m} : Begins P c expired start r → (r.pass P c expired).2.1 = none →
      Begins P c expired start (r.pass P c expired).1

/-- The states in which a solve updates its engine, with the active sets. -/
inductive Run.Updates (P : ScaledProgram K n m) (c : Settings K) (expired : Nat → Bool) (start : Run K n m) :
    NewtonState K n m → Vector Bool m → Prop
  | initial : c.nonconvex = false →
      Updates P c expired start (start.evaluate P).newton (start.evaluate P).evaluation.active
  | retried {e : NewtonError} {s : NewtonState K n m} : c.nonconvex = false →
      ((start.evaluate P).newton.update P (start.evaluate P).evaluation.active c).2.1 = .error e →
      NewtonState.Tries P (start.evaluate P).evaluation.active c c.maxFactorizationRetries
        ((start.evaluate P).newton.update P (start.evaluate P).evaluation.active c).1 s →
      Updates P c expired start s (start.evaluate P).evaluation.active
  | step {r : Run K n m} {s : NewtonState K n m} : Begins P c expired start r →
      NewtonState.Tries P (r.measure P).evaluation.active c c.maxFactorizationRetries (r.measure P).newton s →
      Updates P c expired start s (r.measure P).evaluation.active

/-! ## Runs -/

namespace Run

variable {r : Run K n m}

theorem safe_outerStep (hc : c.validate = .ok ()) (h : r.newton.Safe P) (expired : Nat → Bool) (solved : Bool) :
    (r.outerStep P c expired solved).1.newton.Safe P ∧
      (r.outerStep P c expired solved).1.newton.penalty.rho ≤ r.newton.penalty.rho := by
  have hgrown : (r.growPenalties c).1.Proximal ∧ (r.growPenalties c).1.rho = r.newton.penalty.rho := by
    unfold growPenalties
    simp only
    split
    · obtain ⟨hrho, hfloor⟩ := Penalty.rho_grow (c := c) r.newton.penalty r.evaluation.violation.toArray
        r.point.previousViolation.toArray
      refine ⟨⟨?_, ?_⟩, hrho⟩
      · rw [hfloor]
        exact h.proximal.floor_pos
      · rw [hfloor, hrho]
        exact h.proximal.floor_le
    · exact ⟨h.proximal, rfl⟩
  obtain ⟨hlowered, hle⟩ := hgrown.1.lowerProximal hc solved
  exact ⟨{ ready_outerStep hc h.toReady expired solved with proximal := hlowered }, hle.trans hgrown.2.le⟩

theorem safe_innerStep (hQ : PosSemidef (P.Q.symMatrix n)) (h : r.newton.Safe P) :
    (r.innerStep P c).1.newton.Safe P ∧ (r.innerStep P c).1.newton.penalty.rho = r.newton.penalty.rho ∧
      (r.innerStep P c).2.1 = none := by
  obtain ⟨hnewton, reached, hok⟩ := h.step (c := c) hQ r.point r.evaluation
  have hupdate := h.update r.evaluation.active c
  unfold Run.innerStep
  split
  · next heq =>
      rw [heq] at hok
      cases hok
  · next heq =>
      rw [heq] at hnewton
      cases hnewton
      exact ⟨hupdate, rfl, rfl⟩

/-- A pass keeps the Newton state safe, does not raise the proximal weight, and does not end for want of a
factorization. -/
theorem safe_pass (hQ : PosSemidef (P.Q.symMatrix n)) (hc : c.validate = .ok ()) (h : r.newton.Safe P)
    (expired : Nat → Bool) :
    (r.pass P c expired).1.newton.Safe P ∧ (r.pass P c expired).1.newton.penalty.rho ≤ r.newton.penalty.rho ∧
      (r.pass P c expired).2.1 ≠ some .nonConvex := by
  have hmeasure : (r.measure P).newton.Safe P := h
  unfold pass
  simp only
  split
  · next status hfin =>
      refine ⟨hmeasure, le_rfl, fun hstatus => ?_⟩
      cases hstatus
      rcases verdict_cases hfin with ⟨hne, -⟩ | ⟨hne, -⟩ | ⟨hne, -⟩
      · cases hne
      · cases hne
      · cases hne
  · split
    · exact ⟨hmeasure, le_rfl, by simp⟩
    · split
      · obtain ⟨hsafe, hle⟩ := safe_outerStep hc hmeasure expired
          ((r.measure P).residuals.isStationary (r.measure P).epsAbsIn (r.measure P).epsRelIn)
        refine ⟨hsafe, hle, fun hstatus => ?_⟩
        have hlimit := outerStep_status _ _ _ hstatus
        cases hlimit
      · obtain ⟨hsafe, hrho, hnone⟩ := safe_innerStep (c := c) hQ hmeasure
        exact ⟨hsafe, hrho.le, by rw [hnone]; nofun⟩

theorem safe_iterate (hQ : PosSemidef (P.Q.symMatrix n)) (hc : c.validate = .ok ()) (expired : Nat → Bool)
    (passes : Nat) (h : r.newton.Safe P) : (iterate P c expired passes r).2.1 ≠ .nonConvex := by
  induction passes generalizing r with
  | zero => exact nofun
  | succ passes ih =>
      obtain ⟨hsafe, -, hstatus⟩ := safe_pass hQ hc h expired
      unfold iterate
      split
      · next status _ heq =>
          rw [heq] at hstatus
          exact fun heq' => hstatus (congrArg some heq')
      · next heq =>
          rw [heq] at hsafe
          exact ih hsafe

theorem safe_complete (hQ : PosSemidef (P.Q.symMatrix n)) (hc : c.validate = .ok ()) (h : r.newton.Safe P)
    (expired : Nat → Bool) : (r.complete P c expired).2.1 ≠ .nonConvex := by
  unfold complete
  split
  · exact safe_iterate hQ hc expired _ h
  · have hevaluate : (r.evaluate P).newton.Safe P := h
    simp only [hevaluate.factorInitial_eq hQ]
    exact safe_iterate hQ hc expired _ (hevaluate.update _ c)

/-- Reduced tolerances do not bring the verdict back. -/
theorem reduced_ne_nonConvex {status : Status} (h : status ≠ .nonConvex) : r.reduced P c status ≠ .nonConvex := by
  unfold reduced
  split
  · cases hv : r.verdict P c.reducedEpsAbs c.reducedEpsRel c.reducedEpsPrimInf c.reducedEpsDualInf .solvedInaccurate
        .primalInfeasibleInaccurate .dualInfeasibleInaccurate with
    | none => exact h
    | some verdict =>
        rcases verdict_cases hv with ⟨rfl, -⟩ | ⟨rfl, -⟩ | ⟨rfl, -⟩
        · exact nofun
        · exact nofun
        · exact nofun
  · exact h

variable {start : Run K n m} {expired : Nat → Bool}

theorem Begins.safe (h : Begins P c expired start r) (hQ : PosSemidef (P.Q.symMatrix n)) (hc : c.validate = .ok ())
    (hstart : start.newton.Safe P) : r.newton.Safe P := by
  induction h with
  | unfactored _ => exact hstart
  | factored _ hinitial =>
      have hevaluate : (start.evaluate P).newton.Safe P := hstart
      rw [hevaluate.factorInitial_eq hQ] at hinitial
      cases hinitial
      exact hevaluate.update _ c
  | next _ _ ih => exact (safe_pass hQ hc ih expired).1

/-- No update of a solve is refused. -/
theorem Updates.eq_ok {s : NewtonState K n m} {active : Vector Bool m} (h : Updates P c expired start s active)
    (hQ : PosSemidef (P.Q.symMatrix n)) (hc : c.validate = .ok ()) (hstart : start.newton.Safe P) :
    (s.update P active c).2.1 = .ok () := by
  have hevaluate : (start.evaluate P).newton.Safe P := hstart
  cases h with
  | initial _ => exact hevaluate.update_eq_ok hQ _ c
  | retried _ herror _ =>
      rw [hevaluate.update_eq_ok hQ] at herror
      cases herror
  | step hbegins htries =>
      have hmeasure := hbegins.safe hQ hc hstart
      rw [htries.eq_of_safe hQ hmeasure]
      exact NewtonState.Safe.update_eq_ok hmeasure hQ _ c

end Run

namespace Solver

variable {S : Solver K n m}

theorem rhoFloor_pos (hc : S.settings.validate = .ok ()) : 0 < S.rhoFloor := by
  have hmin := Settings.minProximal_pos hc
  unfold rhoFloor
  split
  · split
    · rw [Scalar.max_eq_max]
      exact hmin.trans_le (le_max_left _ _)
    · exact hmin
  · exact hmin

theorem safe_start (hc : S.settings.validate = .ok ()) (h : S.engine.Consistent S.program.Q S.program.A) :
    S.start.newton.Safe S.program :=
  { ready_start hc h with proximal := Penalty.proximal_initial (rhoFloor_pos hc) }

end Solver
end AugLag
