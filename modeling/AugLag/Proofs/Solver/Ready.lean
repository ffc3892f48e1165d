import AugLag.Proofs.Newton.Engine
import AugLag.Proofs.Solver.Invariant
import AugLag.Solver.Basic

/-!
# Engines of runs

Whatever happens in a solve, its engine stays consistent and its penalties stay positive (`NewtonState.Ready`), so that
the next solve finds an engine that it can use.
-/

namespace AugLag

variable {K : Type} [ExactScalar K] {n m : Nat} {P : ScaledProgram K n m} {c : Settings K}

namespace NewtonState

/-- The engine is consistent, and the penalties it is asked for are positive. -/
structure Ready (s : NewtonState K n m) (P : ScaledProgram K n m) : Prop where
  consistent : s.engine.Consistent P.Q P.A
  positive : s.penalty.Positive

/-- What a state asks its engine for. -/
def request (s : NewtonState K n m) (active : Vector Bool m) : NewtonRequest K m where
  active
  sigma := s.penalty.sigma
  rho := s.penalty.rho

variable {s : NewtonState K n m}

theorem Ready.positivePenalties (h : s.Ready P) (active : Vector Bool m) : (s.request active).PositivePenalties :=
  h.positive

theorem Ready.withPenalty (h : s.Ready P) {penalty : Penalty K m} (hpos : penalty.Positive) :
    Ready { s with penalty } P :=
  ⟨h.consistent, hpos⟩

theorem Ready.update (h : s.Ready P) (active : Vector Bool m) (c : Settings K) : (s.update P active c).1.Ready P :=
  ⟨(h.consistent.answer_spec (h.positivePenalties active) c).1, h.positive⟩

theorem Ready.factorWithRetries (h : s.Ready P) (active : Vector Bool m) (tries failures : Nat) :
    (NewtonState.factorWithRetries P active c tries failures s).1.Ready P := by
  induction tries generalizing failures s with
  | zero =>
      unfold NewtonState.factorWithRetries
      simp only
      cases (s.update P active c).2.1 with
      | ok u => exact h.update active c
      | error e => exact h.update active c
  | succ tries ih =>
      unfold NewtonState.factorWithRetries
      simp only
      cases (s.update P active c).2.1 with
      | ok u => exact h.update active c
      | error e =>
          have hraised : Ready { (s.update P active c).1 with
              penalty := (s.update P active c).1.penalty.regularize c } P := (h.update active c).withPenalty h.positive
          exact ih hraised (failures + 1)

theorem Ready.factor (h : s.Ready P) (active : Vector Bool m) : (s.factor P active c).1.Ready P := by
  have hretries : (NewtonState.factorWithRetries P active c c.maxFactorizationRetries 0 s).1.Ready P :=
    h.factorWithRetries active _ 0
  unfold NewtonState.factor
  simp only
  split
  · exact hretries
  · exact hretries.withPenalty hretries.positive
  · exact hretries

theorem Ready.factorInitial (h : s.Ready P) (active : Vector Bool m) : (s.factorInitial P active c).1.Ready P := by
  have hupdate := h.update active c
  unfold NewtonState.factorInitial
  simp only
  split
  · exact hupdate
  · split
    · exact hupdate
    · exact hupdate.factor active
  · exact hupdate.factor active

theorem Ready.step (h : s.Ready P) (p : Point K n m) (e : Evaluation K n m) : (s.step P p e c).1.Ready P := by
  have hfactor : (s.factor P e.active c).1.Ready P := h.factor e.active
  unfold NewtonState.step
  split
  · next heq =>
      rw [heq] at hfactor
      exact hfactor
  · next heq =>
      rw [heq] at hfactor
      simp only
      split
      · exact hfactor
      · exact hfactor

end NewtonState

namespace Run

variable {r : Run K n m}

theorem ready_outerStep (hc : c.validate = .ok ()) (h : r.newton.Ready P) (expired : Nat → Bool) (solved : Bool) :
    (r.outerStep P c expired solved).1.newton.Ready P :=
  h.withPenalty ((positive_growPenalties hc h.positive).lowerProximal solved c)

theorem ready_innerStep (h : r.newton.Ready P) : (r.innerStep P c).1.newton.Ready P := by
  have hstep : (r.newton.step P r.point r.evaluation c).1.Ready P := h.step r.point r.evaluation
  unfold Run.innerStep
  split
  · next heq =>
      rw [heq] at hstep
      exact hstep
  · next heq =>
      rw [heq] at hstep
      exact hstep

theorem ready_pass (hc : c.validate = .ok ()) (h : r.newton.Ready P) (expired : Nat → Bool) :
    (r.pass P c expired).1.newton.Ready P := by
  have hmeasure : (r.measure P).newton.Ready P := h
  unfold pass
  simp only
  split
  · exact hmeasure
  · split
    · exact hmeasure
    · split
      · exact ready_outerStep hc hmeasure expired _
      · exact ready_innerStep hmeasure

theorem ready_iterate (hc : c.validate = .ok ()) (expired : Nat → Bool) (passes : Nat) (h : r.newton.Ready P) :
    (iterate P c expired passes r).1.newton.Ready P := by
  induction passes generalizing r with
  | zero => exact h
  | succ passes ih =>
      have hpass : (r.pass P c expired).1.newton.Ready P := ready_pass hc h expired
      unfold iterate
      split
      · next heq =>
          rw [heq] at hpass
          exact hpass
      · next heq =>
          rw [heq] at hpass
          exact ih hpass

theorem ready_complete (hc : c.validate = .ok ()) (h : r.newton.Ready P) (expired : Nat → Bool) :
    (r.complete P c expired).1.newton.Ready P := by
  unfold complete
  split
  · exact ready_iterate hc expired _ h
  · have hinitial : ((r.evaluate P).newton.factorInitial P (r.evaluate P).evaluation.active c).1.Ready P :=
      NewtonState.Ready.factorInitial h _
    simp only
    split
    · next heq =>
        rw [heq] at hinitial
        exact hinitial
    · next heq =>
        rw [heq] at hinitial
        exact ready_iterate hc expired _ hinitial

end Run

namespace Solver

variable {S : Solver K n m}

theorem ready_start (hc : S.settings.validate = .ok ()) (h : S.engine.Consistent S.program.Q S.program.A) :
    S.start.newton.Ready S.program :=
  ⟨h.invalidate, Penalty.positive_initial hc S.rhoFloor⟩

/-- A solve leaves a consistent engine behind. -/
theorem consistent_run (hc : S.settings.validate = .ok ()) (h : S.engine.Consistent S.program.Q S.program.A)
    (expired : Nat → Bool) : (S.run expired).1.engine.Consistent S.program.Q S.program.A :=
  (Run.ready_complete hc (ready_start hc h) expired).consistent

end Solver
end AugLag
