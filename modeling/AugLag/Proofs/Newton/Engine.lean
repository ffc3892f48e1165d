import AugLag.Proofs.Newton.Augmented
import AugLag.Proofs.Newton.Reduced
import AugLag.Newton.Engine

/-!
# Histories of the Newton system

An engine is opened, and then asked for one state after the other. Whatever it went through, and whichever form it has,
a request that was answered leaves the factors of its matrix behind.
-/

namespace AugLag

open SparseMatrix Factorization
open scoped Matrix

variable {K : Type} [ExactScalar K] {n m : Nat}

/-- A state that the Newton system is brought in line with. -/
structure NewtonRequest (K : Type) (m : Nat) where
  active : Vector Bool m
  sigma : Vector K m
  rho : K

namespace NewtonRequest

/-- The matrix of the Newton step in a state. -/
def matrix (request : NewtonRequest K m) (Q A : SparseMatrix K) (n : Nat) : Matrix (Fin n) (Fin n) K :=
  hessian Q A n request.active request.sigma request.rho

def PositivePenalties (request : NewtonRequest K m) : Prop := ∀ r, 0 < request.sigma.get r

end NewtonRequest

/-- The order of elimination of a pattern lists each of its columns once. -/
def Ordered [Elimination.Rule] (M : SparseMatrix K) : Prop :=
  (Elimination.Rule.order (Elimination.graph M) 1.0).Perm (List.range M.cols)

namespace NewtonEngine

variable {Q A : SparseMatrix K} {method : Method} {engine engine' : NewtonEngine K n m}
variable {last : Option (NewtonRequest K m)} {request : NewtonRequest K m}

/-- The pattern that is factored is put in order. -/
def PatternOrdered [Elimination.Rule] (Q A : SparseMatrix K) (method : Method) : Prop :=
  if useReduced Q A method then Ordered (ReducedSystem.pattern Q A A.rowIndex A.columnOfSlot)
  else Ordered (AugmentedSystem.pattern Q A A.rowIndex)

instance [Elimination.Rule] (Q A : SparseMatrix K) (method : Method) : Decidable (PatternOrdered Q A method) :=
  inferInstanceAs (Decidable (if useReduced Q A method then List.Perm _ _ else List.Perm _ _))

/-- Every method factors one of two patterns. -/
theorem PatternOrdered.of_both [Elimination.Rule] (hkkt : PatternOrdered Q A .kkt) (hschur : PatternOrdered Q A .schur)
    (method : Method) : PatternOrdered Q A method := by
  unfold PatternOrdered
  split
  · exact hschur
  · exact hkkt

/-- Only the patterns of the matrices count. -/
theorem PatternOrdered.of_samePattern [Elimination.Rule] {Q' A' : SparseMatrix K} (hQ : SamePattern Q' Q)
    (hA : SamePattern A' A) (h : PatternOrdered Q A method) : PatternOrdered Q' A' method := by
  rw [← hQ.eq_withValues, ← hA.eq_withValues] at h
  exact h

/-- Asks for a state. -/
def answer (engine : NewtonEngine K n m) (Q A : SparseMatrix K) (request : NewtonRequest K m) (c : Settings K) :
    NewtonEngine K n m × Except NewtonError Unit × List (Event K) :=
  engine.update Q A request.active request.sigma request.rho c

/-- An engine after a sequence of calls, and its last request if that was answered. -/
inductive History [Elimination.Rule] (Q A : SparseMatrix K) (method : Method) {n m : Nat} :
    NewtonEngine K n m → Option (NewtonRequest K m) → Prop
  | opened {engine : NewtonEngine K n m} : ofProblem Q A n m method = .ok engine → History Q A method engine none
  | answered {engine : NewtonEngine K n m} {last : Option (NewtonRequest K m)} {request : NewtonRequest K m}
      {c : Settings K} : History Q A method engine last → request.PositivePenalties →
      (engine.answer Q A request c).2.1 = .ok () → History Q A method (engine.answer Q A request c).1 (some request)
  | refused {engine : NewtonEngine K n m} {last : Option (NewtonRequest K m)} {request : NewtonRequest K m}
      {c : Settings K} {e : NewtonError} : History Q A method engine last → request.PositivePenalties →
      (engine.answer Q A request c).2.1 = .error e → History Q A method (engine.answer Q A request c).1 none
  | solved {engine : NewtonEngine K n m} {last : Option (NewtonRequest K m)} (rhs : Vector K n) :
      History Q A method engine last → History Q A method engine last
  | invalidated {engine : NewtonEngine K n m} {last : Option (NewtonRequest K m)} :
      History Q A method engine last → History Q A method engine.invalidate last

/-- An engine is consistent in its own form. -/
def Consistent (Q A : SparseMatrix K) : NewtonEngine K n m → Prop
  | .augmented S => AugmentedSystem.Consistent Q A S
  | .reduced S => ReducedSystem.Consistent Q A S

/-- The factors of the engine are those of a request. -/
def Serves (Q A : SparseMatrix K) (request : NewtonRequest K m) : NewtonEngine K n m → Prop
  | .augmented S => AugmentedSystem.Serves Q A S request.active request.sigma request.rho
  | .reduced S => ReducedSystem.Serves Q A S request.active request.sigma request.rho

/-! ## One call -/

theorem consistent_ofProblem [Elimination.Rule] (data : NewtonData Q A n m) (horder : PatternOrdered Q A method) :
    ∃ engine : NewtonEngine K n m, ofProblem Q A n m method = .ok engine ∧ engine.Consistent Q A := by
  unfold ofProblem
  unfold PatternOrdered Ordered at horder
  by_cases hreduced : useReduced Q A method = true
  · rw [if_pos hreduced, ReducedSystem.cols_pattern, data.constraint_cols] at horder
    obtain ⟨S, hS, hconsistent⟩ := ReducedSystem.exists_ofProblem data horder
    rw [if_pos hreduced, hS]
    exact ⟨.reduced S, rfl, hconsistent⟩
  · rw [if_neg hreduced, AugmentedSystem.cols_pattern, data.constraint_cols, data.constraint_rows] at horder
    obtain ⟨S, hS, hconsistent⟩ := AugmentedSystem.exists_ofProblem data horder
    rw [if_neg hreduced, hS]
    exact ⟨.augmented S, rfl, hconsistent⟩

/-- What a request leaves behind if it is answered, and when it is. -/
theorem Consistent.answer_spec (h : engine.Consistent Q A) (hsigma : request.PositivePenalties) (c : Settings K) :
    (engine.answer Q A request c).1.Consistent Q A ∧
      ((engine.answer Q A request c).2.1 = .ok () → (engine.answer Q A request c).1.Serves Q A request) ∧
      (∀ S, engine = .reduced S → ((engine.answer Q A request c).2.1 = .ok () ↔ PosDef (request.matrix Q A n))) ∧
      (∀ S, engine = .augmented S → PosDef (proximal Q n request.rho) → (engine.answer Q A request c).2.1 = .ok ()) := by
  cases engine with
  | augmented S =>
      generalize hresult : S.update Q A request.active request.sigma request.rho = result
      obtain ⟨S', outcome⟩ := result
      have hanswer : (NewtonEngine.augmented S).answer Q A request c = (.augmented S', outcome, []) := by
        simp only [answer, update, hresult]
      obtain ⟨hconsistent, hserves, hok⟩ := AugmentedSystem.update_spec h hsigma hresult
      rw [hanswer]
      exact ⟨hconsistent, hserves, nofun, fun _ _ => hok⟩
  | reduced S =>
      generalize hresult : S.update Q A request.active request.sigma request.rho c = result
      obtain ⟨S', outcome, log⟩ := result
      have hanswer : (NewtonEngine.reduced S).answer Q A request c = (.reduced S', outcome, log) := by
        simp only [answer, update, hresult]
      obtain ⟨hconsistent, -, -, hend⟩ := ReducedSystem.update_spec h hresult
      rw [hanswer]
      refine ⟨hconsistent, fun hok => ?_, fun _ _ => ?_, nofun⟩
      · rcases hend with ⟨-, hserves⟩ | ⟨⟨e, herror⟩, -⟩
        · exact hserves
        · subst herror
          cases hok
      · rcases hend with ⟨hok, hserves⟩ | ⟨⟨e, herror⟩, hnot⟩
        · exact iff_of_true hok (hserves.posDef hconsistent.toFits)
        · subst herror
          exact iff_of_false nofun hnot

theorem Consistent.invalidate (h : engine.Consistent Q A) : engine.invalidate.Consistent Q A := by
  cases engine with
  | augmented S => exact AugmentedSystem.Consistent.invalidate h
  | reduced S => exact ReducedSystem.Consistent.invalidate h

/-- Factors stay what they are when they are declared out of date. -/
theorem Serves.invalidate (h : engine.Serves Q A request) : engine.invalidate.Serves Q A request := by
  cases engine with
  | augmented S =>
      have hserves : AugmentedSystem.Serves Q A S request.active request.sigma request.rho := h
      exact { entries := hserves.entries.of_same rfl rfl rfl, represents := hserves.represents, positive := hserves.positive }
  | reduced S => exact ReducedSystem.Serves.of_factors h rfl

/-- The factors of a positive definite matrix give the one solution of its system. -/
theorem Serves.solves (hs : engine.Serves Q A request) (h : engine.Consistent Q A) (hsigma : request.PositivePenalties) :
    PosDef (request.matrix Q A n) ∧
      ∀ rhs : Vector K n, ∀ d, request.matrix Q A n *ᵥ d = rhs.get ↔ d = (engine.solve rhs).get := by
  have hboth : PosDef (request.matrix Q A n) ∧
      ∀ rhs : Vector K n, request.matrix Q A n *ᵥ (engine.solve rhs).get = rhs.get := by
    cases engine with
    | augmented S =>
        have hconsistent : AugmentedSystem.Consistent Q A S := h
        have hserves : AugmentedSystem.Serves Q A S request.active request.sigma request.rho := hs
        exact ⟨hserves.posDef hconsistent.frame hconsistent.analysis hsigma,
          hserves.mulVec_solve hconsistent.frame hconsistent.analysis hsigma⟩
    | reduced S =>
        have hconsistent : ReducedSystem.Consistent Q A S := h
        have hserves : ReducedSystem.Serves Q A S request.active request.sigma request.rho := hs
        exact ⟨hserves.posDef hconsistent.toFits, hserves.mulVec_solve hconsistent.toFits⟩
  refine ⟨hboth.1, fun rhs d => ⟨fun hd => ?_, ?_⟩⟩
  · exact hboth.1.mulVec_injective (hd.trans (hboth.2 rhs).symm)
  · rintro rfl
    exact hboth.2 rhs

/-! ## All calls -/

/-- The invariant of a history. -/
structure Tracks (Q A : SparseMatrix K) (engine : NewtonEngine K n m) (last : Option (NewtonRequest K m)) : Prop where
  consistent : engine.Consistent Q A
  serves : ∀ request, last = some request → request.PositivePenalties ∧ engine.Serves Q A request

theorem History.tracks [Elimination.Rule] (h : History Q A method engine last) (data : NewtonData Q A n m)
    (horder : PatternOrdered Q A method) : Tracks Q A engine last := by
  induction h with
  | opened hopen =>
      obtain ⟨engine, hengine, hconsistent⟩ := @consistent_ofProblem _ _ n m Q A method _ data horder
      rw [hopen, Except.ok.injEq] at hengine
      exact { consistent := hengine ▸ hconsistent, serves := nofun }
  | answered _ hsigma hok ih =>
      obtain ⟨hconsistent, hserves, -⟩ := ih.consistent.answer_spec hsigma _
      refine { consistent := hconsistent, serves := fun request heq => ?_ }
      rw [← Option.some.inj heq]
      exact ⟨hsigma, hserves hok⟩
  | refused _ hsigma _ ih =>
      exact { consistent := (ih.consistent.answer_spec hsigma _).1, serves := nofun }
  | solved _ _ ih => exact ih
  | invalidated _ ih =>
      refine { consistent := ih.consistent.invalidate, serves := fun request heq => ?_ }
      obtain ⟨hsigma, hserves⟩ := ih.serves request heq
      exact ⟨hsigma, hserves.invalidate⟩

/-! ## A sample -/

namespace Sample

/-- A cost with negative curvature in its second variable. -/
def cost : SparseMatrix ℚ where
  rows := 2
  cols := 2
  colPtr := #[0, 1, 3]
  rowIdx := #[0, 0, 1]
  values := #[2, 1, -1]

/-- A row on both variables and one on the second variable. -/
def constraints : SparseMatrix ℚ where
  rows := 2
  cols := 2
  colPtr := #[0, 1, 3]
  rowIdx := #[0, 0, 1]
  values := #[1, 1, 2]

theorem data : NewtonData cost constraints 2 2 where
  cost := wellFormed_of_check (by decide +kernel)
  upper := show ∀ j < 2, ∀ k ∈ cost.slots j, cost.rowAt k ≤ j by decide +kernel
  cost_cols := rfl
  constraints := wellFormed_of_check (by decide +kernel)
  constraint_cols := rfl
  constraint_rows := rfl

theorem pattern_reduced :
    ReducedSystem.pattern cost constraints constraints.rowIndex constraints.columnOfSlot =
      { rows := 2, cols := 2, colPtr := #[0, 1, 3], rowIdx := #[0, 0, 1], values := #[0, 0, 0] } := by
  cbv

theorem patternOrdered_kkt : PatternOrdered cost constraints .kkt := by
  unfold PatternOrdered Ordered
  decide +kernel

theorem patternOrdered_schur : PatternOrdered cost constraints .schur := by
  unfold PatternOrdered Ordered
  rw [pattern_reduced]
  decide +kernel

/-- All rows are active. -/
def both : NewtonRequest ℚ 2 := { active := #v[true, true], sigma := #v[1, 1], rho := 1 / 2 }

/-- The first row leaves, and the second one, with a new penalty, holds up the curvature alone. -/
def second : NewtonRequest ℚ 2 := { active := #v[false, true], sigma := #v[1, 2], rho := 1 / 2 }

/-- The second row has left, and nothing holds up the curvature. -/
def released : NewtonRequest ℚ 2 := { active := #v[true, false], sigma := #v[1 / 4, 1], rho := 1 / 2 }

/-- No request changes too many rows. -/
def settings : Settings ℚ := { Settings.default with maxRankUpdateFraction := 1 }

def opened (method : Method) : Except NewtonError (NewtonEngine ℚ 2 2) := ofProblem cost constraints 2 2 method

/-- The engine after a request. -/
def next (engine : NewtonEngine ℚ 2 2) (request : NewtonRequest ℚ 2) : NewtonEngine ℚ 2 2 :=
  (engine.answer cost constraints request settings).1

def answers (engine : NewtonEngine ℚ 2 2) (request : NewtonRequest ℚ 2) : Bool :=
  (engine.answer cost constraints request settings).2.1.toBool

theorem both_positive : both.PositivePenalties := by
  simp [NewtonRequest.PositivePenalties, both, Fin.forall_fin_two, Vector.get]

theorem second_positive : second.PositivePenalties := by
  simp [NewtonRequest.PositivePenalties, second, Fin.forall_fin_two, Vector.get]

theorem released_positive : released.PositivePenalties := by
  simp [NewtonRequest.PositivePenalties, released, Fin.forall_fin_two, Vector.get]

theorem eq_ok_of_answers {engine : NewtonEngine ℚ 2 2} {request : NewtonRequest ℚ 2}
    (h : answers engine request = true) : (engine.answer cost constraints request settings).2.1 = .ok () := by
  unfold answers at h
  cases hout : (engine.answer cost constraints request settings).2.1 with
  | ok _ => rfl
  | error e =>
      rw [hout] at h
      cases h

theorem ne_ok_of_not_answers {engine : NewtonEngine ℚ 2 2} {request : NewtonRequest ℚ 2}
    (h : answers engine request = false) : (engine.answer cost constraints request settings).2.1 ≠ .ok () := by
  intro hout
  rw [answers, hout] at h
  cases h

/-- The reduced form follows to the request that leaves the second row, and refuses the one that releases it. -/
def refusesReleased (engine : NewtonEngine ℚ 2 2) : Bool :=
  answers engine both && answers (next engine both) second &&
    match next (next engine both) second with
    | .reduced S => !answers (.reduced S) released
    | .augmented _ => false

/-- In the state with all rows a request that leaves one row changes few of them, whether it is answered or not. -/
def modifiesBoth (engine : NewtonEngine ℚ 2 2) : Bool :=
  answers engine both &&
    match next engine both with
    | .reduced S =>
      S.factored &&
        (!S.tooMany settings (ReducedSystem.changes S.active S.sigma second.active second.sigma).length &&
          !S.tooMany settings (ReducedSystem.changes S.active S.sigma released.active released.sigma).length) &&
        (answers (.reduced S) { second with rho := S.rho } && !answers (.reduced S) { released with rho := S.rho })
    | .augmented _ => false

-- the pattern is sorted by a merge that the kernel does not unfold, so it is put in beforehand
theorem refusesReleased_schur : ((opened .schur).toOption.any refusesReleased) = true := by
  simp only [opened, ofProblem, ReducedSystem.ofProblem, pattern_reduced]
  decide +kernel

theorem modifiesBoth_schur : ((opened .schur).toOption.any modifiesBoth) = true := by
  simp only [opened, ofProblem, ReducedSystem.ofProblem, pattern_reduced]
  decide +kernel

/-- A test that the opened engine passes. -/
theorem exists_opened {method : Method} {test : NewtonEngine ℚ 2 2 → Bool}
    (h : ((opened method).toOption.any test) = true) : ∃ engine, opened method = .ok engine ∧ test engine = true := by
  cases hopen : opened method with
  | ok engine =>
      rw [hopen] at h
      exact ⟨engine, rfl, h⟩
  | error e =>
      rw [hopen] at h
      cases h

theorem history_next {engine : NewtonEngine ℚ 2 2} {last : Option (NewtonRequest ℚ 2)} {request : NewtonRequest ℚ 2}
    (h : History cost constraints method engine last) (hsigma : request.PositivePenalties)
    (hok : answers engine request = true) : History cost constraints method (next engine request) (some request) :=
  .answered h hsigma (eq_ok_of_answers hok)

end Sample

/-! ## The contract -/

/-- After any history the last request, if it was answered, has a positive definite matrix, and a solution is the only
one of its system. A request is answered by the reduced form exactly if its matrix is positive definite, and by the
augmented form whenever the cost with its proximal weight is. -/
theorem History.answers_correct [Elimination.Rule] (h : History Q A method engine last) (data : NewtonData Q A n m)
    (horder : PatternOrdered Q A method) :
    (∀ request, last = some request → PosDef (request.matrix Q A n) ∧
      ∀ rhs : Vector K n, ∀ d, request.matrix Q A n *ᵥ d = rhs.get ↔ d = (engine.solve rhs).get) ∧
    ∀ (request : NewtonRequest K m) (c : Settings K), request.PositivePenalties →
      (∀ S, engine = .reduced S → ((engine.answer Q A request c).2.1 = .ok () ↔ PosDef (request.matrix Q A n))) ∧
      (∀ S, engine = .augmented S → PosDef (proximal Q n request.rho) →
        (engine.answer Q A request c).2.1 = .ok ()) := by
  have htracks := h.tracks data horder
  refine ⟨fun request heq => ?_, fun request c hsigma => ?_⟩
  · obtain ⟨hsigma, hserves⟩ := htracks.serves request heq
    exact hserves.solves htracks.consistent hsigma
  · exact (htracks.consistent.answer_spec hsigma c).2.2

open Sample in
/-- In both forms the sample is followed to a request that leaves one row. A request of the reduced form is refused. -/
theorem History.answers_correct_sample :
    ∃ augmented reduced : NewtonEngine ℚ 2 2,
      History cost constraints .kkt augmented (some second) ∧ History cost constraints .schur reduced (some second) ∧
        PosDef (second.matrix cost constraints 2) ∧
        (∀ rhs : Vector ℚ 2, ∀ d, second.matrix cost constraints 2 *ᵥ d = rhs.get ↔ d = (augmented.solve rhs).get) ∧
        (∀ rhs : Vector ℚ 2, ∀ d, second.matrix cost constraints 2 *ᵥ d = rhs.get ↔ d = (reduced.solve rhs).get) ∧
        ¬PosDef (released.matrix cost constraints 2) := by
  obtain ⟨augmented, hopenAugmented, htest⟩ := @exists_opened .kkt
    (fun engine => answers engine both && answers (next engine both) second) (by decide +kernel)
  rw [Bool.and_eq_true] at htest
  have haugmented := history_next (history_next (.opened hopenAugmented) both_positive htest.1) second_positive htest.2
  obtain ⟨reduced, hopenReduced, htest⟩ := exists_opened refusesReleased_schur
  rw [refusesReleased, Bool.and_eq_true, Bool.and_eq_true] at htest
  obtain ⟨⟨hanswerBoth, hanswerSecond⟩, hrefused⟩ := htest
  have hreduced := history_next (history_next (.opened hopenReduced) both_positive hanswerBoth) second_positive hanswerSecond
  generalize next (next reduced both) second = engine at hreduced hrefused
  obtain ⟨hlast, -⟩ := History.answers_correct haugmented data patternOrdered_kkt
  obtain ⟨hlast', hrequests⟩ := History.answers_correct hreduced data patternOrdered_schur
  refine ⟨_, engine, haugmented, hreduced, (hlast second rfl).1, (hlast second rfl).2, (hlast' second rfl).2, ?_⟩
  cases engine with
  | augmented S => cases hrefused
  | reduced S =>
      rw [Bool.not_eq_true'] at hrefused
      exact fun hpd => ne_ok_of_not_answers hrefused (((hrequests released settings released_positive).1 S rfl).mpr hpd)

/-- In a history a few changes of the rows are followed by modifications of the factors of the reduced form. If the new
matrix is positive definite they all succeed, and the factors are those of a factorization from scratch. Otherwise the
request is refused, and the next one is answered from scratch. -/
theorem History.modifications_exact [Elimination.Rule] {S : ReducedSystem K n m}
    (h : History Q A method (.reduced S) last) (data : NewtonData Q A n m) (horder : PatternOrdered Q A method)
    (hfactored : S.factored = true)
    {active : Vector Bool m} {sigma : Vector K m} {c : Settings K}
    (hfew : S.tooMany c (ReducedSystem.changes S.active S.sigma active sigma).length = false) :
    (PosDef (hessian Q A n active sigma S.rho) →
      (S.modify A (ReducedSystem.changes S.active S.sigma active sigma)).2 = .ok () ∧
      (S.update Q A active sigma S.rho c).2 = (.ok (), []) ∧
      (S.update Q A active sigma S.rho c).1.factors.lower = (S.refactor Q A active sigma S.rho).1.factors.lower ∧
      (S.update Q A active sigma S.rho c).1.factors.diag = (S.refactor Q A active sigma S.rho).1.factors.diag) ∧
    (¬PosDef (hessian Q A n active sigma S.rho) →
      (∃ e, (S.update Q A active sigma S.rho c).2.1 = .error e) ∧
      ∀ (active' : Vector Bool m) (sigma' : Vector K m) (rho' : K) (c' : Settings K),
        (S.update Q A active sigma S.rho c).1.update Q A active' sigma' rho' c' =
          (((S.update Q A active sigma S.rho c).1.refactor Q A active' sigma' rho').1,
            ((S.update Q A active sigma S.rho c).1.refactor Q A active' sigma' rho').2, [])) := by
  have hconsistent : ReducedSystem.Consistent Q A S := (h.tracks data horder).consistent
  generalize hupdate : S.update Q A active sigma S.rho c = result
  obtain ⟨S', outcome, log⟩ := result
  generalize hrefactor : S.refactor Q A active sigma S.rho = scratch
  obtain ⟨S₀, outcome₀⟩ := scratch
  obtain ⟨hconsistent', hpattern, hflag, hend⟩ := ReducedSystem.update_spec hconsistent hupdate
  refine ⟨fun hpd => ?_, fun hnot => ?_⟩
  · generalize hmodify : S.modify A (ReducedSystem.changes S.active S.sigma active sigma) = modified
    obtain ⟨S₁, step⟩ := modified
    obtain ⟨-, -, -, ⟨rfl, -⟩ | ⟨-, hnot⟩⟩ := ReducedSystem.modify_changes_spec hconsistent hfactored hmodify
    · have hcalm : outcome = .ok () ∧ log = [] := by
        rcases ReducedSystem.update_cases hupdate with ⟨hneeds, -⟩ |
          ⟨-, -, -, ⟨-, -, hok, hlog⟩ | ⟨-, -, -, hok, hlog⟩ | ⟨S₂, e, hmodify', -⟩⟩
        · refine absurd hneeds (ReducedSystem.not_needsRefactor_iff.mpr ⟨hfactored, rfl, fun _ => ?_⟩)
          rw [hfew]
          exact Bool.false_ne_true
        · exact ⟨hok, hlog⟩
        · exact ⟨hok, hlog⟩
        · rw [hmodify] at hmodify'
          cases hmodify'
      obtain ⟨rfl, rfl⟩ := hcalm
      obtain ⟨-, hserves⟩ | ⟨-, hnot⟩ := hend
      · obtain ⟨hscratch, hpattern₀, -, ⟨-, hserves₀⟩ | ⟨-, hnot⟩⟩ :=
          ReducedSystem.refactor_spec hconsistent.toFits hrefactor
        · obtain ⟨hlower, hdiag, -⟩ := hserves₀.represents.unique hserves.represents hscratch.analysis.shape
            hconsistent'.analysis.shape (hpattern₀.symm.trans hpattern)
          exact ⟨rfl, rfl, hlower, hdiag⟩
        · exact absurd hpd hnot
      · exact absurd hpd hnot
    · exact absurd hpd hnot
  · obtain ⟨-, hserves⟩ | ⟨⟨e, rfl⟩, -⟩ := hend
    · exact absurd (hserves.posDef hconsistent'.toFits) hnot
    · exact ⟨⟨e, rfl⟩, fun active' sigma' rho' c' => ReducedSystem.update_of_not_factored hflag Q A active' sigma' rho' c'⟩

open Sample in
/-- From the state in which all rows are active the first row can leave, but the second one cannot. -/
theorem History.modifications_exact_sample :
    ∃ S : ReducedSystem ℚ 2 2, History cost constraints .schur (.reduced S) (some both) ∧ S.factored = true ∧
      (S.tooMany settings (ReducedSystem.changes S.active S.sigma second.active second.sigma).length = false ∧
        PosDef (hessian cost constraints 2 second.active second.sigma S.rho) ∧
        (S.update cost constraints second.active second.sigma S.rho settings).1.factors.lower =
          (S.refactor cost constraints second.active second.sigma S.rho).1.factors.lower ∧
        (S.update cost constraints second.active second.sigma S.rho settings).1.factors.diag =
          (S.refactor cost constraints second.active second.sigma S.rho).1.factors.diag) ∧
      (S.tooMany settings (ReducedSystem.changes S.active S.sigma released.active released.sigma).length = false ∧
        ¬PosDef (hessian cost constraints 2 released.active released.sigma S.rho) ∧
        ∃ e, (S.update cost constraints released.active released.sigma S.rho settings).2.1 = .error e) := by
  obtain ⟨engine, hopen, htest⟩ := exists_opened modifiesBoth_schur
  rw [modifiesBoth, Bool.and_eq_true] at htest
  have hhistory := history_next (.opened hopen) both_positive htest.1
  replace htest := htest.2
  generalize next engine both = engine at hhistory htest
  cases engine with
  | augmented S => cases htest
  | reduced S =>
      simp only [Bool.and_eq_true, Bool.not_eq_true'] at htest
      obtain ⟨⟨hfactored, hfewSecond, hfewReleased⟩, hanswered, hrefused⟩ := htest
      have hconsistent := (hhistory.tracks data patternOrdered_schur).consistent
      have hsecond : NewtonRequest.PositivePenalties { second with rho := S.rho } := second_positive
      have hreleased : NewtonRequest.PositivePenalties { released with rho := S.rho } := released_positive
      have hpd := ((hconsistent.answer_spec hsecond settings).2.2.1 S rfl).mp (eq_ok_of_answers hanswered)
      have hnot := fun hpd => ne_ok_of_not_answers hrefused
        (((hconsistent.answer_spec hreleased settings).2.2.1 S rfl).mpr hpd)
      obtain ⟨-, -, hlower, hdiag⟩ :=
        (History.modifications_exact hhistory data patternOrdered_schur hfactored hfewSecond).1 hpd
      have herror := (History.modifications_exact hhistory data patternOrdered_schur hfactored hfewReleased).2 hnot
      exact ⟨S, hhistory, hfactored, ⟨hfewSecond, hpd, hlower, hdiag⟩, hfewReleased, hnot, herror.1⟩

end NewtonEngine
end AugLag
