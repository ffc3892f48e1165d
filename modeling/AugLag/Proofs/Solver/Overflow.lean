import AugLag.Proofs.Machine.Special
import AugLag.Proofs.Solver.Passes
import AugLag.Solver.Basic

/-!
# Overflow and the test for a solution

The norms behind the test are maxima that pass over NaN. The test is therefore one of the entries that are defined:
these must lie within the tolerances, and where a tolerance is finite they are finite. Nothing is said about the others.
-/

namespace AugLag

variable {T : Type} [Scalar T] {n m : Nat}

/-! ## Largest magnitudes -/

namespace Scalar

variable [SpecialValues T] {a b t : T}

/-- A maximum that has begun with a number passes over NaN. -/
theorem max_of_isNaN (ha : isNaN a = false) (hb : isNaN b = true) : max a b = a := by
  unfold max
  rw [ha, if_neg Bool.false_ne_true, if_neg (not_lt_of_isNaN hb)]

theorem max_le_iff (ha : isNaN a = false) : max a b ≤ t ↔ a ≤ t ∧ (isNaN b = true ∨ b ≤ t) := by
  cases hb : isNaN b with
  | true =>
      rw [max_of_isNaN ha hb]
      exact ⟨fun hat => ⟨hat, .inl rfl⟩, And.left⟩
  | false =>
      unfold max
      rw [ha, if_neg Bool.false_ne_true, or_iff_right Bool.false_ne_true]
      split
      · next hlt =>
          exact ⟨fun hbt => ⟨SpecialValues.le_trans (SpecialValues.lt_iff.mp hlt).1 hbt, hbt⟩, And.right⟩
      · next hlt => exact ⟨fun hat => ⟨hat, SpecialValues.le_trans (le_of_not_lt ha hb hlt) hat⟩, And.left⟩

theorem isNaN_max (ha : isNaN a = false) : isNaN (max a b) = false := by
  unfold max
  rw [ha, if_neg Bool.false_ne_true]
  split
  · next hlt => exact (SpecialValues.isNaN_of_le (SpecialValues.lt_iff.mp hlt).1).2
  · exact ha

end Scalar

namespace Vec

variable [SpecialValues T] {terms : List T} {t : T}

open Scalar

/-- The maximum of magnitudes that has come to `a`. -/
def maxAbsFrom (a : T) (terms : List T) : T := terms.foldl (fun a x => Scalar.max a (Scalar.abs x)) a

theorem isNaN_maxAbsFrom {a : T} (ha : isNaN a = false) (terms : List T) : isNaN (maxAbsFrom a terms) = false := by
  induction terms generalizing a with
  | nil => exact ha
  | cons x terms ih => exact ih (isNaN_max ha)

theorem maxAbsFrom_le_iff {a : T} (ha : isNaN a = false) (terms : List T) :
    maxAbsFrom a terms ≤ t ↔ a ≤ t ∧ ∀ x ∈ terms, isNaN x = true ∨ Scalar.abs x ≤ t := by
  induction terms generalizing a with
  | nil => simp [maxAbsFrom]
  | cons x terms ih =>
      have hstep : maxAbsFrom a (x :: terms) = maxAbsFrom (Scalar.max a (Scalar.abs x)) terms := rfl
      rw [hstep, ih (isNaN_max ha), max_le_iff ha, SpecialValues.isNaN_abs, List.forall_mem_cons, and_assoc]

/-- NaN terms may as well be left out. -/
theorem maxAbsFrom_filter {a : T} (ha : isNaN a = false) (terms : List T) :
    maxAbsFrom a (terms.filter fun x => !isNaN x) = maxAbsFrom a terms := by
  induction terms generalizing a with
  | nil => rfl
  | cons x terms ih =>
      have hstep : maxAbsFrom a (x :: terms) = maxAbsFrom (Scalar.max a (Scalar.abs x)) terms := rfl
      cases hx : isNaN x with
      | true =>
          rw [List.filter_cons_of_neg (by simp [hx]), ih ha, hstep,
            max_of_isNaN ha ((SpecialValues.isNaN_abs x).trans hx)]
      | false =>
          rw [List.filter_cons_of_pos (by simp [hx]), hstep]
          exact ih (isNaN_max ha)

theorem isNaN_zero : isNaN (0 : T) = false := SpecialValues.isNaN_of_isFinite SpecialValues.isFinite_zero

theorem isNaN_maxAbs (terms : List T) : isNaN (maxAbs terms) = false := isNaN_maxAbsFrom isNaN_zero terms

theorem maxAbs_le_iff : maxAbs terms ≤ t ↔ 0 ≤ t ∧ ∀ x ∈ terms, isNaN x = true ∨ Scalar.abs x ≤ t :=
  maxAbsFrom_le_iff isNaN_zero terms

theorem maxAbs_filter (terms : List T) : maxAbs (terms.filter fun x => !isNaN x) = maxAbs terms :=
  maxAbsFrom_filter isNaN_zero terms

theorem maxAbs_nonneg (terms : List T) : 0 ≤ maxAbs terms := (maxAbs_le_iff.mp (le_refl (isNaN_maxAbs terms))).1

theorem isFinite_of_isFinite_maxAbs (h : Scalar.isFinite (maxAbs terms) = true) {x : T} (hx : x ∈ terms) :
    isNaN x = true ∨ Scalar.isFinite x = true := by
  have hle := (maxAbs_le_iff.mp (le_refl (isNaN_maxAbs terms))).2 x hx
  cases hnan : isNaN x with
  | true => exact .inl rfl
  | false =>
      have habs : Scalar.abs x ≤ maxAbs terms := hle.resolve_left (by simp [hnan])
      exact .inr (SpecialValues.isFinite_of_abs
        (SpecialValues.isFinite_between SpecialValues.isFinite_zero h (SpecialValues.abs_nonneg hnan) habs))

/-- A norm that is at most a finite number is finite. -/
theorem isFinite_maxAbs_of_le (ht : Scalar.isFinite t = true) (h : maxAbs terms ≤ t) :
    Scalar.isFinite (maxAbs terms) = true :=
  SpecialValues.isFinite_between SpecialValues.isFinite_zero ht (maxAbs_nonneg terms) h

omit [SpecialValues T] in
theorem mem_toList_zipWith_mul (v w : Vector T n) (x : T) :
    x ∈ (Vector.zipWith (· * ·) v w).toList ↔ ∃ i, v.get i * w.get i = x := by
  rw [Vector.mem_toList_iff, Vector.mem_iff_getElem]
  constructor
  · rintro ⟨i, hi, rfl⟩
    exact ⟨⟨i, hi⟩, (Vector.getElem_zipWith hi).symm⟩
  · rintro ⟨i, rfl⟩
    exact ⟨i, i.isLt, Vector.getElem_zipWith i.isLt⟩

theorem normInfScaled_le_iff (v w : Vector T n) :
    normInfScaled v w ≤ t ↔
      0 ≤ t ∧ ∀ i, isNaN (v.get i * w.get i) = true ∨ Scalar.abs (v.get i * w.get i) ≤ t := by
  rw [normInfScaled, maxAbs_le_iff]
  refine and_congr_right fun _ => ⟨fun h i => h _ ((mem_toList_zipWith_mul v w _).mpr ⟨i, rfl⟩), fun h x hx => ?_⟩
  obtain ⟨i, rfl⟩ := (mem_toList_zipWith_mul v w x).mp hx
  exact h i

/-- A finite norm has finite elements behind it, where their products are defined. -/
theorem isFinite_of_isFinite_normInfScaled {v w : Vector T n} (h : Scalar.isFinite (normInfScaled v w) = true)
    (i : Fin n) : isNaN (v.get i * w.get i) = true ∨ Scalar.isFinite (v.get i) = true :=
  (isFinite_of_isFinite_maxAbs h ((mem_toList_zipWith_mul v w _).mpr ⟨i, rfl⟩)).imp id
    fun hfinite => (SpecialValues.isFinite_of_mul hfinite).1

end Vec

/-! ## Residuals -/

/-- Element `i` of `A x - z` in the units of the problem. -/
def Evaluation.primalTerm (e : Evaluation T n m) (P : ScaledProgram T n m) (i : Fin m) : T :=
  e.violation.get i * P.scaling.einv.get i

/-- Element `j` of `Q x + q + Aᵀ ŷ`, before the cost is scaled back. -/
def Evaluation.dualTerm (e : Evaluation T n m) (P : ScaledProgram T n m) (j : Fin n) : T :=
  e.stationarity.get j * P.scaling.dinv.get j

namespace Residuals

variable [SpecialValues T] {P : ScaledProgram T n m} {p : Point T n m} {e : Evaluation T n m} {epsAbs epsRel : T}

open Scalar

/-- The terms that are defined pass the test for a solution; the others are not asked. -/
structure Passes (P : ScaledProgram T n m) (p : Point T n m) (e : Evaluation T n m) (epsAbs epsRel : T) : Prop where
  tolerance_nonneg : 0 ≤ (ofPoint P p e).primalTolerance epsAbs epsRel
  primal_le (i : Fin m) : isNaN (e.primalTerm P i) = true ∨
    Scalar.abs (e.primalTerm P i) ≤ (ofPoint P p e).primalTolerance epsAbs epsRel
  dual_le : Vec.maxAbs ((Vector.ofFn (e.dualTerm P)).toList.filter fun x => !isNaN x) * recip P.scaling.c ≤
    (ofPoint P p e).dualTolerance epsAbs epsRel

omit [SpecialValues T] in
theorem isSolved_eq_true_iff (r : Residuals T) :
    r.isSolved epsAbs epsRel = true ↔
      r.primal ≤ r.primalTolerance epsAbs epsRel ∧ r.dual ≤ r.dualTolerance epsAbs epsRel := by
  rw [isSolved, Bool.and_eq_true, decide_eq_true_iff, decide_eq_true_iff]

theorem isSolved_iff_passes : (ofPoint P p e).isSolved epsAbs epsRel = true ↔ Passes P p e epsAbs epsRel := by
  have hdual : (ofPoint P p e).dual =
      Vec.maxAbs ((Vector.ofFn (e.dualTerm P)).toList.filter fun x => !isNaN x) * recip P.scaling.c := by
    have hterms : Vector.ofFn (e.dualTerm P) = Vector.zipWith (· * ·) e.stationarity P.scaling.dinv := by
      ext j hj
      rw [Vector.getElem_ofFn, Vector.getElem_zipWith]
      rfl
    rw [Vec.maxAbs_filter, hterms]
    rfl
  rw [isSolved_eq_true_iff]
  constructor
  · rintro ⟨hprimal, hle⟩
    obtain ⟨hzero, hterms⟩ := (Vec.normInfScaled_le_iff _ _).mp hprimal
    exact ⟨hzero, hterms, hdual ▸ hle⟩
  · rintro ⟨hzero, hterms, hle⟩
    exact ⟨(Vec.normInfScaled_le_iff _ _).mpr ⟨hzero, hterms⟩, hdual ▸ hle⟩

theorem isNaN_of_isSolved (h : (ofPoint P p e).isSolved epsAbs epsRel = true) :
    isNaN (ofPoint P p e).primal = false ∧ isNaN (ofPoint P p e).dual = false := by
  obtain ⟨hprimal, hdual⟩ := (isSolved_eq_true_iff _).mp h
  exact ⟨(SpecialValues.isNaN_of_le hprimal).1, (SpecialValues.isNaN_of_le hdual).1⟩

theorem isFinite_primal (h : (ofPoint P p e).isSolved epsAbs epsRel = true)
    (htol : Scalar.isFinite ((ofPoint P p e).primalTolerance epsAbs epsRel) = true) :
    Scalar.isFinite (ofPoint P p e).primal = true ∧
      ∀ i, isNaN (e.primalTerm P i) = true ∨ Scalar.isFinite (e.violation.get i) = true := by
  obtain ⟨hprimal, -⟩ := (isSolved_eq_true_iff _).mp h
  have hfinite := Vec.isFinite_maxAbs_of_le htol hprimal
  exact ⟨hfinite, Vec.isFinite_of_isFinite_normInfScaled hfinite⟩

/-- The factor of the cost must not turn the sign of the norm. -/
theorem isFinite_dual (h : (ofPoint P p e).isSolved epsAbs epsRel = true) (hc : 0 ≤ recip P.scaling.c)
    (htol : Scalar.isFinite ((ofPoint P p e).dualTolerance epsAbs epsRel) = true) :
    Scalar.isFinite (ofPoint P p e).dual = true ∧
      ∀ j, isNaN (e.dualTerm P j) = true ∨ Scalar.isFinite (e.stationarity.get j) = true := by
  obtain ⟨-, hdual⟩ := (isSolved_eq_true_iff _).mp h
  have hnonneg : 0 ≤ (ofPoint P p e).dual :=
    SpecialValues.mul_nonneg (Vec.maxAbs_nonneg _) hc (isNaN_of_isSolved h).2
  have hfinite := SpecialValues.isFinite_between SpecialValues.isFinite_zero htol hnonneg hdual
  exact ⟨hfinite, Vec.isFinite_of_isFinite_normInfScaled (SpecialValues.isFinite_of_mul hfinite).1⟩

end Residuals

/-! ## Runs -/

namespace Run

variable {r : Run T n m} {P : ScaledProgram T n m} {c : Settings T} {expired : Nat → Bool}

/-- The residuals are those of the present point and pass the test at full accuracy. -/
def Solves (r : Run T n m) (P : ScaledProgram T n m) (c : Settings T) : Prop :=
  r.info.primalResidual = (Residuals.ofPoint P r.point r.evaluation).primal ∧
    r.info.dualResidual = (Residuals.ofPoint P r.point r.evaluation).dual ∧
      (Residuals.ofPoint P r.point r.evaluation).isSolved c.epsAbs c.epsRel = true

theorem solves_of_pass (expired : Nat → Bool) (r : Run T n m) (P : ScaledProgram T n m) (c : Settings T)
    (h : (r.pass P c expired).2.1 = some .solved) : (r.pass P c expired).1.Solves P c := by
  rcases pass_cases r P c expired with ⟨status, hpass, hend⟩ | ⟨-, solved, hpass⟩ | ⟨-, -, hpass⟩
  · rw [hpass] at h ⊢
    cases h
    rcases hend with hfinished | ⟨heq, -⟩
    · rcases verdict_cases hfinished with ⟨-, hsolved⟩ | ⟨hne, -⟩ | ⟨hne, -⟩
      · exact ⟨rfl, rfl, hsolved⟩
      · cases hne
      · cases hne
    · cases heq
  · rw [hpass] at h
    cases outerStep_status _ _ _ h
  · rw [hpass] at h
    cases innerStep_status _ h

theorem solves_of_iterate (passes : Nat) (r : Run T n m) (h : (iterate P c expired passes r).2.1 = .solved) :
    (iterate P c expired passes r).1.Solves P c := by
  induction passes generalizing r with
  | zero => cases h
  | succ passes ih =>
      have hlast := solves_of_pass expired r P c
      unfold iterate at h ⊢
      split
      · next heq =>
          rw [heq] at h hlast
          exact hlast (congrArg some h)
      · next heq =>
          rw [heq] at h
          exact ih _ h

theorem solves_of_complete (r : Run T n m) (h : (r.complete P c expired).2.1 = .solved) :
    (r.complete P c expired).1.Solves P c := by
  unfold complete at h ⊢
  split
  · next hnonconvex =>
      rw [if_pos hnonconvex] at h
      exact solves_of_iterate _ _ h
  · next hconvex =>
      rw [if_neg hconvex] at h
      simp only at h ⊢
      split
      · next heq =>
          rw [heq] at h
          cases h
      · next heq =>
          rw [heq] at h
          exact solves_of_iterate _ _ h

/-- The reduced accuracy has a status of its own. -/
theorem eq_solved_of_reduced {status : Status} (h : r.reduced P c status = .solved) : status = .solved := by
  unfold reduced at h
  split at h
  · next hlimit =>
      cases hverdict : r.verdict P c.reducedEpsAbs c.reducedEpsRel c.reducedEpsPrimInf c.reducedEpsDualInf
          .solvedInaccurate .primalInfeasibleInaccurate .dualInfeasibleInaccurate with
      | none =>
          rw [hverdict] at h
          exact h
      | some verdict =>
          rw [hverdict] at h
          rcases verdict_cases hverdict with ⟨rfl, -⟩ | ⟨rfl, -⟩ | ⟨rfl, -⟩
          · cases h
          · cases h
          · cases h
  · exact h

end Run

theorem Solver.solves_of_run (S : Solver T n m) (expired : Nat → Bool)
    (h : (S.run expired).2.info.status = .solved) : (S.run expired).2.run.Solves S.program S.settings :=
  Run.solves_of_complete S.start (Run.eq_solved_of_reduced h)

end AugLag
