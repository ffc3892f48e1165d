import AugLag.Proofs.Checked.Engine
import AugLag.Proofs.Checked.Program
import AugLag.Solver.Basic

/-!
# The checked iteration

A run asks for products with the matrices of its program, for updates and solutions of its engine, and for rows of its
penalties. None of these misses an access, and after each update the engine can be updated again, whether or not a
factorization succeeded. Nothing here depends on how the scalars calculate.
-/

namespace AugLag.Checked.Iteration

variable {T : Type} [Scalar T] {n m : Nat} {P : ScaledProgram T n m} {c : Settings T}

/-! ## Newton steps -/

section Steps

/-- Brings the engine in line with the active set and the penalties. -/
def update (s : NewtonState T n m) (P : ScaledProgram T n m) (active : Vector Bool m) (c : Settings T) :
    Option (NewtonState T n m × Except NewtonError Unit × List (Event T)) := do
  let out ← Engine.update s.engine P.Q P.A active s.penalty.sigma s.penalty.rho c
  return ({ s with engine := out.1 }, out.2)

/-- Updates the engine with a larger proximal weight after each failure. -/
def factorWithRetries (P : ScaledProgram T n m) (active : Vector Bool m) (c : Settings T) :
    Nat → Nat → NewtonState T n m → Option (NewtonState T n m × Except NewtonError Nat × List (Event T))
  | 0, failures, s => do
    let out ← update s P active c
    match out.2.1 with
    | .ok () => return (out.1, .ok failures, out.2.2)
    | .error e => return (out.1, .error e, out.2.2 ++ [.factorizationGivenUp failures e])
  | tries + 1, failures, s => do
    let out ← update s P active c
    match out.2.1 with
    | .ok () => return (out.1, .ok failures, out.2.2)
    | .error e =>
      let penalty := out.1.penalty.regularize c
      let rest ← factorWithRetries P active c tries (failures + 1) { out.1 with penalty }
      return (rest.1, rest.2.1, out.2.2 ++ [.factorizationRetried e penalty.rho] ++ rest.2.2)

/-- Factors the Newton system of an active set. -/
def factor (s : NewtonState T n m) (P : ScaledProgram T n m) (active : Vector Bool m) (c : Settings T) :
    Option (NewtonState T n m × Except NewtonError Bool × List (Event T)) := do
  let out ← factorWithRetries P active c c.maxFactorizationRetries 0 s
  match out.2.1 with
  | .ok 0 => return (out.1, .ok false, out.2.2)
  | .ok (_ + 1) => return ({ out.1 with penalty := out.1.penalty.commit }, .ok true, out.2.2)
  | .error e => return (out.1, .error e, out.2.2)

/-- Factors the first system of a convex problem. -/
def factorInitial (s : NewtonState T n m) (P : ScaledProgram T n m) (active : Vector Bool m) (c : Settings T) :
    Option (NewtonState T n m × Except NewtonError Unit × List (Event T)) := do
  let out ← update s P active c
  let retry : Option (NewtonState T n m × Except NewtonError Unit × List (Event T)) := do
    let again ← factor out.1 P active c
    return (again.1, again.2.1.map fun _ => (), out.2.2 ++ again.2.2)
  match out.2.1 with
  | .ok () => return (out.1, .ok (), out.2.2)
  | .error .notPositiveDefinite =>
    if 0 < out.1.penalty.rho then return (out.1, .error .notPositiveDefinite, out.2.2) else retry
  | .error (.factor _) => retry

/-- One Newton step with line search. -/
def step (s : NewtonState T n m) (P : ScaledProgram T n m) (p : Point T n m) (e : Evaluation T n m)
    (c : Settings T) : Option (NewtonState T n m × Except NewtonError (T × Point T n m) × List (Event T)) := do
  match ← factor s P e.active c with
  | (s, .error err, log) => return (s, .error err, log)
  | (s, .ok raised, log) =>
    let gradient := if raised then Evaluation.gradientAt e.stationarity p s.penalty.rho else e.gradient
    let d ← Engine.solve s.engine (Vec.neg gradient)
    let Ad ← mulAdd P.A (Vec.zeros m) d 1 0
    let Qd ← symMulAdd P.Q (Vec.zeros n) d 1 0
    match (s.lineSearch P p d Ad Qd).search? c with
    | some τ => return (s, .ok (τ, p.step τ d Ad Qd), log)
    | none => return (s, .ok (0, p.step 0 d Ad Qd), log ++ [.noDecrease])

variable {s : NewtonState T n m} (h : Engine.Intact P.Q P.A s.engine)

include h

theorem update_eq (active : Vector Bool m) : update s P active c = some (s.update P active c) ∧
    Engine.Intact P.Q P.A (s.update P active c).1.engine := by
  obtain ⟨hupdate, hintact⟩ := h.update active s.penalty.sigma s.penalty.rho c
  rw [update, hupdate]
  exact ⟨rfl, hintact⟩

theorem factorWithRetries_eq (active : Vector Bool m) (tries failures : Nat) :
    factorWithRetries P active c tries failures s = some (NewtonState.factorWithRetries P active c tries failures s) ∧
      Engine.Intact P.Q P.A (NewtonState.factorWithRetries P active c tries failures s).1.engine := by
  induction tries generalizing failures s with
  | zero =>
      obtain ⟨hupdate, hintact⟩ := update_eq (c := c) h active
      unfold factorWithRetries NewtonState.factorWithRetries
      rw [hupdate]
      simp only [Option.bind_eq_bind, Option.bind_some]
      generalize s.update P active c = out at hintact ⊢
      obtain ⟨t, outcome, log⟩ := out
      cases outcome with
      | ok u => exact ⟨rfl, hintact⟩
      | error e => exact ⟨rfl, hintact⟩
  | succ tries ih =>
      obtain ⟨hupdate, hintact⟩ := update_eq (c := c) h active
      unfold factorWithRetries NewtonState.factorWithRetries
      rw [hupdate]
      simp only [Option.bind_eq_bind, Option.bind_some]
      generalize s.update P active c = out at hintact ⊢
      obtain ⟨t, outcome, log⟩ := out
      cases outcome with
      | ok u => exact ⟨rfl, hintact⟩
      | error e =>
          obtain ⟨hrest, hlast⟩ := @ih { t with penalty := t.penalty.regularize c } hintact (failures + 1)
          simp only [hrest, Option.bind_some]
          exact ⟨rfl, hlast⟩

theorem factor_eq (active : Vector Bool m) : factor s P active c = some (s.factor P active c) ∧
    Engine.Intact P.Q P.A (s.factor P active c).1.engine := by
  obtain ⟨hretries, hintact⟩ := factorWithRetries_eq (c := c) h active c.maxFactorizationRetries 0
  unfold factor NewtonState.factor
  rw [hretries]
  simp only [Option.bind_eq_bind, Option.bind_some]
  generalize NewtonState.factorWithRetries P active c c.maxFactorizationRetries 0 s = out at hintact ⊢
  obtain ⟨t, outcome, log⟩ := out
  rcases outcome with e | _ | k
  · exact ⟨rfl, hintact⟩
  · exact ⟨rfl, hintact⟩
  · exact ⟨rfl, hintact⟩

theorem factorInitial_eq (active : Vector Bool m) : factorInitial s P active c = some (s.factorInitial P active c) ∧
    Engine.Intact P.Q P.A (s.factorInitial P active c).1.engine := by
  obtain ⟨hupdate, hintact⟩ := update_eq (c := c) h active
  unfold factorInitial NewtonState.factorInitial
  rw [hupdate]
  simp only [Option.bind_eq_bind, Option.bind_some]
  generalize s.update P active c = out at hintact ⊢
  obtain ⟨t, outcome, log⟩ := out
  obtain ⟨hfactor, hagain⟩ := @factor_eq _ _ _ _ _ c t hintact active
  rcases outcome with (e | _) | u
  · simp only [hfactor, Option.bind_some]
    exact ⟨rfl, hagain⟩
  · simp only
    split
    · exact ⟨rfl, hintact⟩
    · simp only [hfactor, Option.bind_some]
      exact ⟨rfl, hagain⟩
  · exact ⟨rfl, hintact⟩

theorem step_eq (hP : SquareData P.Q P.A n m) (p : Point T n m) (e : Evaluation T n m) :
    step s P p e c = some (s.step P p e c) ∧ Engine.Intact P.Q P.A (s.step P p e c).1.engine := by
  obtain ⟨hfactor, hintact⟩ := factor_eq (c := c) h e.active
  unfold step NewtonState.step
  rw [hfactor]
  simp only [Option.bind_eq_bind, Option.bind_some]
  generalize s.factor P e.active c = out at hintact ⊢
  obtain ⟨t, outcome, log⟩ := out
  cases outcome with
  | error err => exact ⟨rfl, hintact⟩
  | ok raised =>
      have hready : Engine.Intact P.Q P.A t.engine := hintact
      simp only
      generalize (if raised then Evaluation.gradientAt e.stationarity p t.penalty.rho else e.gradient) = gradient
      simp only [hready.solve, mulAdd_eq hP.constraints hP.constraint_rows hP.constraint_cols,
        symMulAdd_eq hP.cost hP.cost_rows hP.cost_cols hP.upper, Option.bind_some]
      generalize t.engine.solve (Vec.neg gradient) = d
      generalize P.A.mulAdd (Vec.zeros m) d 1 0 = Ad
      generalize P.Q.symMulAdd (Vec.zeros n) d 1 0 = Qd
      cases (t.lineSearch P p d Ad Qd).search? c with
      | none => exact ⟨rfl, hready⟩
      | some τ => exact ⟨rfl, hready⟩

end Steps

/-! ## Runs -/

section Runs

def evaluate (r : Run T n m) (P : ScaledProgram T n m) : Option (Run T n m) := do
  return { r with evaluation := ← Program.evaluate P r.point r.newton.penalty.sigma r.newton.penalty.rho }

/-- Brings the evaluation, the residuals and the reported norms up to date. -/
def measure (r : Run T n m) (P : ScaledProgram T n m) : Option (Run T n m) := do
  let r ← evaluate r P
  let residuals := Residuals.ofPoint P r.point r.evaluation
  return { r with
    residuals
    info := { r.info with primalResidual := residuals.primal, dualResidual := residuals.dual } }

/-- The status that the present point justifies at the given tolerances. -/
def verdict (r : Run T n m) (P : ScaledProgram T n m) (epsAbs epsRel epsPrimal epsDual : T)
    (optimal infeasible unbounded : Status) : Option (Option Status) :=
  if r.residuals.isSolved epsAbs epsRel then some (some optimal)
  else do
    if ← Program.isPrimalInfeasible P r.evaluation.dy epsPrimal then return some infeasible
    else if P.isDualInfeasible r.point.dx r.point.Qdx r.point.Adx epsDual then return some unbounded
    else return none

/-- The verdict at full accuracy. -/
def finished (r : Run T n m) (P : ScaledProgram T n m) (c : Settings T) : Option (Option Status) :=
  verdict r P c.epsAbs c.epsRel c.epsPrimInf c.epsDualInf .solved .primalInfeasible .dualInfeasible

/-- The verdict at reduced accuracy, where a limit has ended the iteration. -/
def reduced (r : Run T n m) (P : ScaledProgram T n m) (c : Settings T) (status : Status) : Option Status :=
  if status.isLimit then do
    let found ← verdict r P c.reducedEpsAbs c.reducedEpsRel c.reducedEpsPrimInf c.reducedEpsDualInf .solvedInaccurate
      .primalInfeasibleInaccurate .dualInfeasibleInaccurate
    return found.getD status
  else some status

/-- Grows the penalties of stalled rows, each of which must have one. -/
def growPenalties (r : Run T n m) (c : Settings T) : Option (Penalty T m × List (Event T)) :=
  let penalty := r.newton.penalty
  if 0 < r.info.iterOut && r.residuals.primalTolerance c.epsAbs c.epsRel < r.residuals.primal then do
    let grown ← penalty.grow? r.evaluation.violation.toArray r.point.previousViolation.toArray c
    return (grown.1, if grown.2.isEmpty then [] else [.penaltyIncreased grown.2.length])
  else some (penalty, [])

/-- Ends a subproblem. -/
def outerStep (r : Run T n m) (P : ScaledProgram T n m) (c : Settings T) (expired : Nat → Bool) (solved : Bool) :
    Option (Run T n m × Option Status × List (Signal T)) := do
  let given : List (Event T) :=
    if solved then [] else [.subproblemUnsolved r.info.iterOut r.iterIn r.residuals.gradient]
  let grown ← growPenalties r c
  let iterOut := r.info.iterOut + 1
  let next : Run T n m :=
    { r with
      newton := { r.newton with penalty := (grown.1.lowerProximal solved c).1 }
      point := r.point.updateMultipliers r.evaluation
      epsAbsIn := Scalar.max (r.epsAbsIn * c.toleranceShrink) c.epsAbs
      epsRelIn := Scalar.max (r.epsRelIn * c.toleranceShrink) c.epsRel
      iterIn := 0
      info := { r.info with
        innerNonconvergence := r.info.innerNonconvergence + if solved then 0 else 1
        iterOut
        objective := P.objective r.point.x r.point.Qx / P.scaling.c } }
  let rows := if c.verbose && iterOut % Nat.max c.printInterval 1 == 0 then [.progress next.progressRow] else []
  let status :=
    if c.maxOuterIter ≤ iterOut then some .maxIterReached
    else if expired iterOut then some .timeLimitReached
    else none
  return (next, status, (given ++ grown.2).map .event ++ rows)

/-- Takes a Newton step on the present subproblem. -/
def innerStep (r : Run T n m) (P : ScaledProgram T n m) (c : Settings T) :
    Option (Run T n m × Option Status × List (Signal T)) := do
  match ← step r.newton P r.point r.evaluation c with
  | (newton, .error e, log) => return ({ r with newton }, some .nonConvex, (log ++ [Event.notPositive e]).map .event)
  | (newton, .ok (τ, point), log) =>
    let zero : List (Event T) := if τ == 0 then [.zeroStep r.info.iter] else []
    return ({ r with newton, point, iterIn := r.iterIn + 1, info := { r.info with iter := r.info.iter + 1 } }, none,
      (log ++ zero).map .event)

/-- One pass of the iteration. -/
def pass (r : Run T n m) (P : ScaledProgram T n m) (c : Settings T) (expired : Nat → Bool) :
    Option (Run T n m × Option Status × List (Signal T)) := do
  let r ← measure r P
  match ← finished r P c with
  | some status => return (r, some status, [])
  | none =>
    if c.maxIter ≤ r.info.iter then return (r, some .maxIterReached, [])
    else
      let solved := r.residuals.isStationary r.epsAbsIn r.epsRelIn
      if solved || c.innerMaxIter ≤ r.iterIn then outerStep r P c expired solved else innerStep r P c

/-- Passes until one of them ends the iteration, and at most `passes` of them. -/
def iterate (P : ScaledProgram T n m) (c : Settings T) (expired : Nat → Bool) :
    Nat → Run T n m → Option (Run T n m × Status × List (Signal T))
  | 0, r => some (r, .maxIterReached, [])
  | passes + 1, r => do
    let out ← pass r P c expired
    match out.2.1 with
    | some status => return (out.1, status, out.2.2)
    | none =>
      let rest ← iterate P c expired passes out.1
      return (rest.1, rest.2.1, out.2.2 ++ rest.2.2)

/-- The whole iteration. -/
def complete (r : Run T n m) (P : ScaledProgram T n m) (c : Settings T) (expired : Nat → Bool) :
    Option (Run T n m × Status × List (Signal T)) :=
  if c.nonconvex then iterate P c expired (Run.passLimit c) r
  else do
    let r ← evaluate r P
    match ← factorInitial r.newton P r.evaluation.active c with
    | (newton, .error e, log) => return ({ r with newton }, .nonConvex, (log ++ [Event.startNotPositive e]).map .event)
    | (newton, .ok (), log) =>
      let rest ← iterate P c expired (Run.passLimit c) { r with newton }
      return (rest.1, rest.2.1, log.map .event ++ rest.2.2)

variable {r : Run T n m} (hP : SquareData P.Q P.A n m)

theorem growPenalties_eq : growPenalties r c = some (r.growPenalties c) := by
  have hrows : (Penalty.rowsWith r.evaluation.violation.toArray r.point.previousViolation.toArray).all
      (fun e => e.1 < m || !Penalty.stalled c e.2.1 e.2.2) = true := by
    rw [List.all_eq_true]
    intro e he
    have hlt := List.mem_range.mp (List.of_mem_zip he).1
    rw [Vector.size_toArray] at hlt
    simp [hlt]
  have hgrow : r.newton.penalty.grow? r.evaluation.violation.toArray r.point.previousViolation.toArray c =
      some (r.newton.penalty.grow r.evaluation.violation.toArray r.point.previousViolation.toArray c) := if_pos hrows
  unfold growPenalties Run.growPenalties
  simp only [hgrow]
  split
  · rfl
  · rfl

theorem outerStep_eq (expired : Nat → Bool) (solved : Bool) :
    outerStep r P c expired solved = some (r.outerStep P c expired solved) := by
  rw [outerStep, growPenalties_eq]
  rfl

include hP

theorem innerStep_eq (h : Engine.Intact P.Q P.A r.newton.engine) :
    innerStep r P c = some (r.innerStep P c) ∧ Engine.Intact P.Q P.A (r.innerStep P c).1.newton.engine := by
  obtain ⟨hstep, hintact⟩ := step_eq (c := c) h hP r.point r.evaluation
  unfold innerStep Run.innerStep
  rw [hstep]
  simp only [Option.bind_eq_bind, Option.bind_some]
  generalize r.newton.step P r.point r.evaluation c = out at hintact ⊢
  obtain ⟨s, outcome, log⟩ := out
  cases outcome with
  | error e => exact ⟨rfl, hintact⟩
  | ok reached => exact ⟨rfl, hintact⟩

theorem evaluate_eq : evaluate r P = some (r.evaluate P) := by
  rw [evaluate, Program.evaluate_eq hP]
  rfl

theorem measure_eq : measure r P = some (r.measure P) := by
  rw [measure, evaluate_eq hP]
  rfl

theorem verdict_eq (epsAbs epsRel epsPrimal epsDual : T) (optimal infeasible unbounded : Status) :
    verdict r P epsAbs epsRel epsPrimal epsDual optimal infeasible unbounded =
      some (r.verdict P epsAbs epsRel epsPrimal epsDual optimal infeasible unbounded) := by
  unfold verdict Run.verdict
  split
  · rfl
  · rw [Program.isPrimalInfeasible_eq hP]
    simp only [Option.bind_eq_bind, Option.bind_some]
    split_ifs <;> rfl

theorem reduced_eq (status : Status) : reduced r P c status = some (r.reduced P c status) := by
  unfold reduced Run.reduced
  split
  · rw [verdict_eq hP]
    rfl
  · rfl

theorem pass_eq (h : Engine.Intact P.Q P.A r.newton.engine) (expired : Nat → Bool) :
    pass r P c expired = some (r.pass P c expired) ∧
      Engine.Intact P.Q P.A (r.pass P c expired).1.newton.engine := by
  have hmeasured : Engine.Intact P.Q P.A (r.measure P).newton.engine := h
  have hfinished : finished (r.measure P) P c = some ((r.measure P).finished P c) := verdict_eq hP ..
  unfold pass Run.pass
  rw [measure_eq hP]
  simp only [Option.bind_eq_bind, Option.bind_some, hfinished]
  generalize r.measure P = r at hmeasured ⊢
  cases r.finished P c with
  | some status => exact ⟨rfl, hmeasured⟩
  | none =>
      simp only
      split
      · exact ⟨rfl, hmeasured⟩
      · split
        · exact ⟨outerStep_eq expired _, hmeasured⟩
        · exact innerStep_eq hP hmeasured

theorem iterate_eq (expired : Nat → Bool) (passes : Nat) (h : Engine.Intact P.Q P.A r.newton.engine) :
    iterate P c expired passes r = some (Run.iterate P c expired passes r) ∧
      Engine.Intact P.Q P.A (Run.iterate P c expired passes r).1.newton.engine := by
  induction passes generalizing r with
  | zero => exact ⟨rfl, h⟩
  | succ passes ih =>
      obtain ⟨hpass, hintact⟩ := pass_eq (c := c) hP h expired
      unfold iterate Run.iterate
      rw [hpass]
      simp only [Option.bind_eq_bind, Option.bind_some]
      generalize r.pass P c expired = out at hintact ⊢
      obtain ⟨r, outcome, signals⟩ := out
      cases outcome with
      | some status => exact ⟨rfl, hintact⟩
      | none =>
          obtain ⟨hrest, hlast⟩ := ih hintact
          simp only [hrest, Option.bind_some]
          exact ⟨rfl, hlast⟩

theorem complete_eq (h : Engine.Intact P.Q P.A r.newton.engine) (expired : Nat → Bool) :
    complete r P c expired = some (r.complete P c expired) ∧
      Engine.Intact P.Q P.A (r.complete P c expired).1.newton.engine := by
  unfold complete Run.complete
  split
  · exact iterate_eq hP expired _ h
  · have hevaluated : Engine.Intact P.Q P.A (r.evaluate P).newton.engine := h
    obtain ⟨hfactor, hintact⟩ := factorInitial_eq (c := c) hevaluated (r.evaluate P).evaluation.active
    rw [evaluate_eq hP]
    simp only [Option.bind_eq_bind, Option.bind_some, hfactor]
    generalize (r.evaluate P).newton.factorInitial P (r.evaluate P).evaluation.active c = out at hintact ⊢
    obtain ⟨newton, outcome, log⟩ := out
    cases outcome with
    | error e => exact ⟨rfl, hintact⟩
    | ok u =>
        have hstart : Engine.Intact P.Q P.A ({ r.evaluate P with newton } : Run T n m).newton.engine := hintact
        obtain ⟨hrest, hlast⟩ := iterate_eq (c := c) hP expired (Run.passLimit c) hstart
        simp only [hrest, Option.bind_some]
        exact ⟨rfl, hlast⟩

end Runs

end AugLag.Checked.Iteration
