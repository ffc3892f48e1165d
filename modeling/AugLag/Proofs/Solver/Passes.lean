import AugLag.Proofs.Settings
import AugLag.Solver.Basic

/-!
# Passes of the iteration

Every pass that does not end the iteration counts one Newton step or one multiplier update, so that the limits on both
bound the number of passes (`Run.exists_ends`). All counters stay within their limits on the way (`Run.Bounded`). A
Newton step updates its engine a bounded number of times (`NewtonState.Factors`). Nothing here depends on how the scalars
calculate.
-/

namespace AugLag

variable {T : Type} [Scalar T] {n m : Nat} {P : ScaledProgram T n m} {c : Settings T}

/-! ## Updates of the engine in a Newton step -/

namespace NewtonState

/-- A factorization by a number of updates of the engine. All but the last one fail, and the weight is raised after each
of those. -/
inductive Factors (P : ScaledProgram T n m) (active : Vector Bool m) (c : Settings T) :
    Nat → NewtonState T n m → NewtonState T n m → Except NewtonError Unit → Prop
  | last (s : NewtonState T n m) : Factors P active c 1 s (s.update P active c).1 (s.update P active c).2.1
  | again {k : Nat} {s s' : NewtonState T n m} {outcome : Except NewtonError Unit} {e : NewtonError} :
      (s.update P active c).2.1 = .error e →
      Factors P active c k
        { (s.update P active c).1 with penalty := (s.update P active c).1.penalty.regularize c } s' outcome →
      Factors P active c (k + 1) s s' outcome

/-- The tries are the updates after the first one. -/
theorem exists_factors (active : Vector Bool m) (tries failures : Nat) (s : NewtonState T n m) :
    ∃ k, k ≤ tries + 1 ∧
      Factors P active c k s (factorWithRetries P active c tries failures s).1
        ((factorWithRetries P active c tries failures s).2.1.map fun _ => ()) := by
  induction tries generalizing failures s with
  | zero =>
      refine ⟨1, le_rfl, ?_⟩
      have hlast : Factors P active c 1 s _ _ := .last s
      unfold factorWithRetries
      cases hupdate : (s.update P active c).2.1 with
      | ok u =>
          rw [hupdate] at hlast
          simpa only [hupdate, Except.map] using hlast
      | error e =>
          rw [hupdate] at hlast
          simpa only [hupdate, Except.map] using hlast
  | succ tries ih =>
      unfold factorWithRetries
      cases hupdate : (s.update P active c).2.1 with
      | ok u =>
          have hlast : Factors P active c 1 s _ _ := .last s
          rw [hupdate] at hlast
          exact ⟨1, by omega, by simpa only [hupdate, Except.map] using hlast⟩
      | error e =>
          obtain ⟨k, hk, hfactors⟩ := ih (failures + 1)
            { (s.update P active c).1 with penalty := (s.update P active c).1.penalty.regularize c }
          exact ⟨k + 1, by omega, by simpa only [hupdate] using .again hupdate hfactors⟩

theorem exists_factors_factor (s : NewtonState T n m) (active : Vector Bool m) :
    ∃ k s', k ≤ c.maxFactorizationRetries + 1 ∧
      Factors P active c k s s' ((s.factor P active c).2.1.map fun _ => ()) ∧
        (s.factor P active c).1.engine = s'.engine := by
  obtain ⟨k, hk, hfactors⟩ := exists_factors (P := P) (c := c) active c.maxFactorizationRetries 0 s
  refine ⟨k, (factorWithRetries P active c c.maxFactorizationRetries 0 s).1, hk, ?_⟩
  unfold factor
  simp only
  split
  · next hoc =>
      rw [hoc] at hfactors
      exact ⟨hfactors, rfl⟩
  · next hoc =>
      rw [hoc] at hfactors
      exact ⟨hfactors, rfl⟩
  · next hoc =>
      rw [hoc] at hfactors
      exact ⟨hfactors, rfl⟩

/-- A Newton step needs no more updates than there are retries and a first try. It has no other way to the engine. -/
theorem exists_factors_step (s : NewtonState T n m) (p : Point T n m) (e : Evaluation T n m) :
    ∃ k s', k ≤ c.maxFactorizationRetries + 1 ∧
      Factors P e.active c k s s' ((s.step P p e c).2.1.map fun _ => ()) ∧ (s.step P p e c).1.engine = s'.engine := by
  obtain ⟨k, s', hk, hfactors, hengine⟩ := exists_factors_factor (P := P) (c := c) s e.active
  refine ⟨k, s', hk, ?_⟩
  unfold step
  split
  · next heq =>
      rw [heq] at hfactors hengine
      exact ⟨hfactors, hengine⟩
  · next heq =>
      rw [heq] at hfactors hengine
      simp only
      split
      · exact ⟨hfactors, hengine⟩
      · exact ⟨hfactors, hengine⟩

end NewtonState

namespace Run

variable {r r₀ : Run T n m} {expired : Nat → Bool} {status : Status} {k : Nat}

/-! ## Single passes -/

/-- A verdict names the test that it rests on. -/
theorem verdict_cases {epsAbs epsRel epsPrimal epsDual : T} {optimal infeasible unbounded : Status}
    (h : r.verdict P epsAbs epsRel epsPrimal epsDual optimal infeasible unbounded = some status) :
    (optimal = status ∧ r.residuals.isSolved epsAbs epsRel = true) ∨
      (infeasible = status ∧ P.isPrimalInfeasible r.evaluation.dy epsPrimal = true) ∨
        (unbounded = status ∧ P.isDualInfeasible r.point.dx r.point.Qdx r.point.Adx epsDual = true) := by
  unfold verdict at h
  split at h
  · next hsolved => exact .inl ⟨Option.some.inj h, hsolved⟩
  · split at h
    · next hprimal => exact .inr (.inl ⟨Option.some.inj h, hprimal⟩)
    · split at h
      · next hdual => exact .inr (.inr ⟨Option.some.inj h, hdual⟩)
      · cases h

theorem outerStep_status (r : Run T n m) (expired : Nat → Bool) (solved : Bool) {status : Status}
    (h : (r.outerStep P c expired solved).2.1 = some status) : status.isLimit = true := by
  unfold outerStep at h
  simp only at h
  split at h
  · cases h
    rfl
  · split at h
    · cases h
      rfl
    · cases h

theorem outerStep_continues (r : Run T n m) (expired : Nat → Bool) (solved : Bool)
    (h : (r.outerStep P c expired solved).2.1 = none) :
    (r.outerStep P c expired solved).1.info.iter = r.info.iter ∧
      (r.outerStep P c expired solved).1.info.iterOut = r.info.iterOut + 1 ∧ r.info.iterOut + 1 < c.maxOuterIter := by
  refine ⟨rfl, rfl, ?_⟩
  unfold outerStep at h
  simp only at h
  split at h
  · cases h
  · next hlt => exact not_le.mp hlt

theorem innerStep_status (r : Run T n m) {status : Status} (h : (r.innerStep P c).2.1 = some status) :
    status = .nonConvex := by
  unfold innerStep at h
  split at h
  · cases h
    rfl
  · cases h

theorem innerStep_continues (r : Run T n m) (h : (r.innerStep P c).2.1 = none) :
    (r.innerStep P c).1.info.iter = r.info.iter + 1 ∧ (r.innerStep P c).1.info.iterOut = r.info.iterOut := by
  unfold innerStep at h ⊢
  split at h
  · cases h
  · exact ⟨rfl, rfl⟩

/-- What a pass does after it has measured: it ends the solve by a verdict or for the number of Newton steps, it updates
the multipliers, or it takes a Newton step. -/
theorem pass_cases (r : Run T n m) (P : ScaledProgram T n m) (c : Settings T) (expired : Nat → Bool) :
    (∃ status, r.pass P c expired = (r.measure P, some status, []) ∧
        ((r.measure P).finished P c = some status ∨ status = .maxIterReached ∧ c.maxIter ≤ r.info.iter)) ∨
      (r.info.iter < c.maxIter ∧ ∃ solved, r.pass P c expired = (r.measure P).outerStep P c expired solved) ∨
        (r.info.iter < c.maxIter ∧ r.iterIn < c.innerMaxIter ∧ r.pass P c expired = (r.measure P).innerStep P c) := by
  unfold pass
  simp only
  split
  · next status hfinished => exact .inl ⟨status, rfl, .inl hfinished⟩
  · split
    · next hlimit => exact .inl ⟨_, rfl, .inr ⟨rfl, hlimit⟩⟩
    · next hlimit =>
        have hiter : r.info.iter < c.maxIter := not_le.mp hlimit
        split
        · exact .inr (.inl ⟨hiter, _, rfl⟩)
        · next hinner =>
            rw [Bool.or_eq_true, decide_eq_true_eq, not_or, not_le] at hinner
            exact .inr (.inr ⟨hiter, hinner.2, rfl⟩)

/-! ## Counters -/

/-- The counters stay within their limits. -/
structure Bounded (r : Run T n m) (c : Settings T) : Prop where
  iter_le : r.info.iter ≤ c.maxIter
  iterOut_le : r.info.iterOut ≤ c.maxOuterIter
  innerNonconvergence_le : r.info.innerNonconvergence ≤ r.info.iterOut
  iterIn_le : r.iterIn ≤ c.innerMaxIter
  iter_le_mul : r.info.iter ≤ c.innerMaxIter * (r.info.iterOut + 1)

/-- The counters before a pass, after a number of passes that did not end the solve. -/
structure Counted (r : Run T n m) (c : Settings T) (passes : Nat) : Prop where
  /-- Every pass was a Newton step or a multiplier update. -/
  passes_eq : r.info.iter + r.info.iterOut = passes
  iter_le : r.info.iter ≤ c.maxIter
  iterOut_lt : r.info.iterOut < c.maxOuterIter
  innerNonconvergence_le : r.info.innerNonconvergence ≤ r.info.iterOut
  iterIn_le : r.iterIn ≤ c.innerMaxIter
  /-- The subproblems that are over took no more steps than each of them was allowed. -/
  iter_le_mul_add : r.info.iter ≤ c.innerMaxIter * r.info.iterOut + r.iterIn

namespace Counted

omit [Scalar T] in
theorem bounded (h : r.Counted c k) : r.Bounded c where
  iter_le := h.iter_le
  iterOut_le := h.iterOut_lt.le
  innerNonconvergence_le := h.innerNonconvergence_le
  iterIn_le := h.iterIn_le
  iter_le_mul := by
    have hiter := h.iter_le_mul_add
    have hin := h.iterIn_le
    rw [mul_add, mul_one]
    omega

theorem measure (h : r.Counted c k) : (r.measure P).Counted c k :=
  ⟨h.passes_eq, h.iter_le, h.iterOut_lt, h.innerNonconvergence_le, h.iterIn_le, h.iter_le_mul_add⟩

/-- A multiplier update counts as a pass and begins a new subproblem. Only a limit can end the solve here. -/
theorem outerStep (h : r.Counted c k) (expired : Nat → Bool) (solved : Bool) :
    (r.outerStep P c expired solved).1.Bounded c ∧
      ((r.outerStep P c expired solved).2.1 = none → (r.outerStep P c expired solved).1.Counted c (k + 1)) ∧
        ((r.outerStep P c expired solved).2.1 = some .maxIterReached →
          (r.outerStep P c expired solved).1.info.iterOut = c.maxOuterIter) := by
  have hnonconvergence : r.info.innerNonconvergence + (if solved then 0 else 1) ≤ r.info.iterOut + 1 := by
    have hle := h.innerNonconvergence_le
    split <;> omega
  have hiter : r.info.iter ≤ c.innerMaxIter * (r.info.iterOut + 1) := h.bounded.iter_le_mul
  refine ⟨?_, fun hnone => ?_, fun hstatus => ?_⟩
  · exact {
      iter_le := h.iter_le
      iterOut_le := h.iterOut_lt
      innerNonconvergence_le := hnonconvergence
      iterIn_le := Nat.zero_le _
      iter_le_mul := hiter.trans (Nat.mul_le_mul_left _ (Nat.le_succ _)) }
  · obtain ⟨-, -, hlt⟩ := outerStep_continues r expired solved hnone
    exact {
      passes_eq := congrArg (· + 1) h.passes_eq
      iter_le := h.iter_le
      iterOut_lt := hlt
      innerNonconvergence_le := hnonconvergence
      iterIn_le := Nat.zero_le _
      iter_le_mul_add := hiter }
  · -- The number of updates was below its limit, so that it is reached and not passed.
    have hlast := h.iterOut_lt
    unfold Run.outerStep at hstatus ⊢
    simp only at hstatus ⊢
    split at hstatus
    · next hreached => omega
    · split at hstatus
      · cases hstatus
      · cases hstatus

/-- A Newton step counts as a pass in the present subproblem. A failed one ends the solve and counts nothing. -/
theorem innerStep (h : r.Counted c k) (hiter : r.info.iter < c.maxIter) (hin : r.iterIn < c.innerMaxIter) :
    (r.innerStep P c).1.Bounded c ∧ ((r.innerStep P c).2.1 = none → (r.innerStep P c).1.Counted c (k + 1)) := by
  have hpasses := h.passes_eq
  have hmul := h.iter_le_mul_add
  unfold Run.innerStep
  split
  · exact ⟨⟨h.iter_le, h.iterOut_lt.le, h.innerNonconvergence_le, h.iterIn_le, h.bounded.iter_le_mul⟩, nofun⟩
  · next newton τ point log heq =>
      have hcounted : Counted { r with
          newton, point, iterIn := r.iterIn + 1, info := { r.info with iter := r.info.iter + 1 } } c (k + 1) := {
        passes_eq := by simp only; omega
        iter_le := hiter
        iterOut_lt := h.iterOut_lt
        innerNonconvergence_le := h.innerNonconvergence_le
        iterIn_le := hin
        iter_le_mul_add := Nat.succ_le_succ hmul }
      exact ⟨hcounted.bounded, fun _ => hcounted⟩

/-- A pass keeps the counters within their limits. It counts once more if it does not end the solve, and it ends the
solve for the number of steps or updates only where one of them has reached its limit. -/
theorem pass (h : r.Counted c k) (P : ScaledProgram T n m) (expired : Nat → Bool) :
    (r.pass P c expired).1.Bounded c ∧
      ((r.pass P c expired).2.1 = none → (r.pass P c expired).1.Counted c (k + 1)) ∧
        ((r.pass P c expired).2.1 = some .maxIterReached →
          (r.pass P c expired).1.info.iter = c.maxIter ∨ (r.pass P c expired).1.info.iterOut = c.maxOuterIter) := by
  have hmeasure : (r.measure P).Counted c k := h.measure
  rcases pass_cases r P c expired with ⟨status, hpass, hend⟩ | ⟨-, solved, hpass⟩ | ⟨hiter, hin, hpass⟩
  · rw [hpass]
    refine ⟨hmeasure.bounded, nofun, fun hstatus => .inl ?_⟩
    cases hstatus
    rcases hend with hfinished | ⟨-, hlimit⟩
    · rcases verdict_cases hfinished with ⟨hne, -⟩ | ⟨hne, -⟩ | ⟨hne, -⟩
      · cases hne
      · cases hne
      · cases hne
    · exact le_antisymm h.iter_le hlimit
  · rw [hpass]
    obtain ⟨hbounded, hcounted, hlast⟩ := hmeasure.outerStep (P := P) expired solved
    exact ⟨hbounded, hcounted, fun hstatus => .inr (hlast hstatus)⟩
  · rw [hpass]
    obtain ⟨hbounded, hcounted⟩ := hmeasure.innerStep (P := P) hiter hin
    refine ⟨hbounded, hcounted, fun hstatus => ?_⟩
    cases innerStep_status _ hstatus

omit [Scalar T] in
/-- The limits leave room for one more pass at least. -/
theorem lt_passLimit (h : r.Counted c k) : k < passLimit c := by
  have hpasses := h.passes_eq
  have hiter := h.iter_le
  have hout := h.iterOut_lt
  rw [passLimit]
  omega

end Counted

/-! ## Passes one after the other -/

/-- The runs with which the passes begin, after a number of passes that did not end the solve. -/
inductive Reaches (P : ScaledProgram T n m) (c : Settings T) (expired : Nat → Bool) (r₀ : Run T n m) :
    Nat → Run T n m → Prop
  | start : Reaches P c expired r₀ 0 r₀
  | next {k : Nat} {r : Run T n m} : Reaches P c expired r₀ k r → (r.pass P c expired).2.1 = none →
      Reaches P c expired r₀ (k + 1) (r.pass P c expired).1

/-- The solve ends with pass number `passes`. -/
inductive Ends (P : ScaledProgram T n m) (c : Settings T) (expired : Nat → Bool) (r₀ : Run T n m) :
    Nat → Run T n m → Status → Prop
  | last {k : Nat} {r : Run T n m} {status : Status} : Reaches P c expired r₀ k r →
      (r.pass P c expired).2.1 = some status → Ends P c expired r₀ (k + 1) (r.pass P c expired).1 status

theorem Reaches.counted (h : Reaches P c expired r₀ k r) (h₀ : r₀.Counted c 0) : r.Counted c k := by
  induction h with
  | start => exact h₀
  | next _ hnone ih => exact (ih.pass P expired).2.1 hnone

/-- The iteration ends by itself. The number of passes that it is allowed does not matter, if it is large enough. -/
theorem exists_ends (h₀ : r₀.Counted c 0) (passes : Nat) (h : Reaches P c expired r₀ k r)
    (hpasses : passLimit c ≤ k + passes) :
    ∃ last, last ≤ passLimit c ∧
      Ends P c expired r₀ last (iterate P c expired passes r).1 (iterate P c expired passes r).2.1 := by
  induction passes generalizing k r with
  | zero =>
      have hlt := (h.counted h₀).lt_passLimit
      omega
  | succ passes ih =>
      have hlast : ∀ status, (r.pass P c expired).2.1 = some status →
          Ends P c expired r₀ (k + 1) (r.pass P c expired).1 status := fun _ => .last h
      have hnext := Reaches.next h
      unfold iterate
      split
      · next r' status signals heq =>
          rw [heq] at hlast
          exact ⟨k + 1, (h.counted h₀).lt_passLimit, hlast status rfl⟩
      · next r' signals heq =>
          rw [heq] at hnext
          exact ih (hnext rfl) (by omega)

theorem Ends.bounded {last : Nat} (h : Ends P c expired r₀ last r status) (h₀ : r₀.Counted c 0) :
    r.Bounded c ∧ (status = .maxIterReached → r.info.iter = c.maxIter ∨ r.info.iterOut = c.maxOuterIter) := by
  cases h with
  | last hreaches hstatus =>
      obtain ⟨hbounded, -, hlimit⟩ := (hreaches.counted h₀).pass P expired
      exact ⟨hbounded, fun heq => hlimit (hstatus.trans (congrArg some heq))⟩

/-! ## The first pass -/

/-- The run with which the first pass begins. There is none if the first system of a convex problem cannot be factored. -/
def entry (r : Run T n m) (P : ScaledProgram T n m) (c : Settings T) : Option (Run T n m) :=
  if c.nonconvex then some r
  else
    let r := r.evaluate P
    match r.newton.factorInitial P r.evaluation.active c with
    | (_, .error _, _) => none
    | (newton, .ok (), _) => some { r with newton }

theorem complete_of_entry (h : r.entry P c = some r₀) (expired : Nat → Bool) :
    (r.complete P c expired).1 = (iterate P c expired (passLimit c) r₀).1 ∧
      (r.complete P c expired).2.1 = (iterate P c expired (passLimit c) r₀).2.1 := by
  unfold entry at h
  unfold complete
  split at h
  · next hnonconvex =>
      cases h
      simp only [hnonconvex, if_true, and_self]
  · next hconvex =>
      simp only [hconvex, Bool.false_eq_true, if_false]
      simp only at h
      generalize (r.evaluate P).newton.factorInitial P (r.evaluate P).evaluation.active c = out at h ⊢
      obtain ⟨newton, outcome, log⟩ := out
      cases outcome with
      | error e => cases h
      | ok u =>
          cases h
          exact ⟨rfl, rfl⟩

/-- Without a first system the run ends before it has counted anything. -/
theorem complete_of_no_entry (h : r.entry P c = none) (expired : Nat → Bool) :
    (r.complete P c expired).1.info = r.info ∧ (r.complete P c expired).1.iterIn = r.iterIn ∧
      (r.complete P c expired).2.1 = .nonConvex := by
  unfold entry at h
  unfold complete
  split at h
  · cases h
  · next hconvex =>
      simp only [hconvex, Bool.false_eq_true, if_false]
      simp only at h
      generalize (r.evaluate P).newton.factorInitial P (r.evaluate P).evaluation.active c = out at h ⊢
      obtain ⟨newton, outcome, log⟩ := out
      cases outcome with
      | error e => exact ⟨rfl, rfl, rfl⟩
      | ok u => cases h

/-- A run that has counted nothing begins its passes so, too. -/
theorem counted_zero (hc : c.validate = .ok ()) (hinfo : r.info = Info.blank) (hin : r.iterIn = 0) :
    r.Counted c 0 := by
  refine ⟨?_, ?_, ?_, ?_, ?_, ?_⟩
  · rw [hinfo]
    rfl
  · rw [hinfo]
    exact Nat.zero_le _
  · rw [hinfo]
    exact Settings.maxOuterIter_pos hc
  · rw [hinfo]
    exact le_rfl
  · rw [hin]
    exact Nat.zero_le _
  · rw [hinfo]
    exact Nat.zero_le _

theorem counted_entry (hc : c.validate = .ok ()) (hinfo : r.info = Info.blank) (hin : r.iterIn = 0)
    (h : r.entry P c = some r₀) : r₀.Counted c 0 := by
  unfold entry at h
  split at h
  · cases h
    exact counted_zero hc hinfo hin
  · simp only at h
    split at h
    · cases h
    · cases h
      exact counted_zero hc hinfo hin

end Run

/-! ## Solves -/

theorem Solver.counted_entry {S : Solver T n m} (hc : S.settings.validate = .ok ()) {r₀ : Run T n m}
    (h : S.start.entry S.program S.settings = some r₀) : r₀.Counted S.settings 0 :=
  Run.counted_entry hc rfl rfl h

end AugLag
