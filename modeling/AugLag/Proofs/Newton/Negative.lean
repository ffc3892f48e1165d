import AugLag.Proofs.Newton.Engine

/-!
# Negative definite systems

If the matrix of a request is negative definite, then so is the large system that contains it. Elimination meets no
pivot that is zero and none that is positive, in whatever order it goes on. So an engine that starts from scratch refuses
the request for the signs of the pivots, and not for a pivot that is missing.
-/

namespace AugLag

open SparseMatrix Factorization
open scoped Matrix

variable {K : Type} [ExactScalar K] {n m : Nat}

/-! ## Signs of the pivots -/

theorem PivotVector.neg {N : Nat} {M : Matrix (Fin N) (Fin N) K} {k : Fin N} {pivot : K} {v : Fin N → K}
    (h : PivotVector M k pivot v) : PivotVector (-M) k (-pivot) v where
  one := h.one
  zero := h.zero
  image_zero i hi := by rw [Matrix.neg_mulVec, Pi.neg_apply, h.image_zero i hi, neg_zero]
  image_pivot := by rw [Matrix.neg_mulVec, Pi.neg_apply, h.image_pivot]

namespace Factorization

variable {A : SparseMatrix K} {F : Factorization K} {M : Nat → Nat → K}

theorem Analysis.pivot_neg (h : Analysis A F) (hM : PosDef (-leading F.dim M)) {k : Fin F.dim} {pivot : K}
    {v : Fin F.dim → K} (hv : PivotVector (leading F.dim (F.reordered M)) k pivot v) : pivot < 0 :=
  neg_pos.mp (hv.neg.pos ((h.posDef_reordered fun i j => -M i j).mpr hM))

/-- No pivot of a negative definite matrix is positive. -/
theorem Represents.positive_eq_zero (h : F.Represents M) (hA : Analysis A F) (hM : PosDef (-leading F.dim M)) :
    F.positive = 0 := by
  have hunit := Full.unitLower h.full
  rw [h.positive_eq, List.countP_eq_zero]
  intro t ht
  rw [List.mem_range] at ht
  obtain ⟨v, hv⟩ := @Eliminated.exists_pivotVector _ _ F.dim _ _ _ ⟨t, ht⟩ (h.elim.mono hunit ht) hunit
  rw [decide_eq_true_eq]
  exact (hA.pivot_neg hM hv).not_gt

theorem Analysis.refactor_negative (h : Analysis A F) (hholds : F.stored.Holds A)
    (hM : PosDef (-leading F.dim A.sym)) : F.refactor.2 = .ok () ∧ F.refactor.1.positive = 0 := by
  obtain ⟨hanalysis, hsame, hcases⟩ := h.refactor hholds
  rcases hcases with ⟨hok, hrepresents⟩ | ⟨-, k, v, hpivot⟩
  · exact ⟨hok, hrepresents.positive_eq_zero hanalysis (by rwa [hsame.dim])⟩
  · exact absurd (h.pivot_neg hM hpivot) (lt_irrefl 0)

end Factorization

/-! ## The large system -/

theorem Saddle.posDef_neg {T : Nat → Nat → K} {P : Matrix (Fin n) (Fin n) K} {B : Matrix (Fin m) (Fin n) K}
    {W : Fin m → K} (h : Saddle T P B W) (hW : ∀ r, 0 < W r) (hneg : PosDef (-condensed P B W)) :
    PosDef (-leading (n + m) T) := by
  intro z hz
  -- The second part is measured from where the constraints would take it.
  let x : Fin n → K := fun i => z (Fin.castAdd m i)
  let w : Fin m → K := fun r => z (Fin.natAdd n r) - (W r)⁻¹ * (B *ᵥ x) r
  have hsplit : z = Fin.append x fun r => (W r)⁻¹ * (B *ᵥ x) r + w r := by
    have hrest : (fun r => (W r)⁻¹ * (B *ᵥ x) r + w r) = fun r => z (Fin.natAdd n r) :=
      funext fun r => add_sub_cancel _ _
    rw [hrest]
    exact Fin.append_castAdd_natAdd.symm
  have hsquares : ∀ r, 0 ≤ W r * (w r * w r) := fun r => mul_nonneg (hW r).le (mul_self_nonneg _)
  rw [Matrix.neg_mulVec, dotProduct_neg, hsplit, h.dotProduct_shifted fun r => (hW r).ne', neg_sub]
  by_cases hx : x = 0
  · have hw : ∃ r, w r ≠ 0 := by
      by_contra hnone
      simp only [not_exists, not_not] at hnone
      refine hz ?_
      rw [hsplit]
      simp only [hx, hnone, Matrix.mulVec_zero, Pi.zero_apply, mul_zero, add_zero]
      exact Fin.append_castAdd_natAdd (f := 0)
    obtain ⟨r, hr⟩ := hw
    rw [hx, zero_dotProduct, sub_zero]
    exact Finset.sum_pos' (fun r _ => hsquares r) ⟨r, Finset.mem_univ r, mul_pos (hW r) (mul_self_pos.mpr hr)⟩
  · have hcondensed := hneg x hx
    rw [Matrix.neg_mulVec, dotProduct_neg, neg_pos] at hcondensed
    exact sub_pos.mpr (hcondensed.trans_le (Finset.sum_nonneg fun r _ => hsquares r))

/-! ## Refusals -/

variable {Q A : SparseMatrix K} {active : Vector Bool m} {sigma : Vector K m} {rho : K}

namespace AugmentedSystem

variable {S : AugmentedSystem K n m}

theorem factorChanged_negative {slots : List Nat} {F : Factorization K}
    (hF : S.factors.updateValues slots (slots.map S.matrix.valueAt) = F) (h : Frame Q A S) (hA : Analysis S.matrix F)
    (hholds : F.stored.Holds S.matrix) (he : Entries Q A S S.active S.sigma S.rho S.matrix.values)
    (hsigma : ∀ r, 0 < S.sigma.get r) (hn : 0 < n) (hneg : PosDef (-hessian Q A n S.active S.sigma S.rho)) :
    (S.factorChanged slots).2 = .error .notPositiveDefinite := by
  have hlarge : PosDef (-leading F.dim S.matrix.sym) := by
    rw [hA.dim_eq.trans h.matrix_cols]
    refine (he.saddle h).posDef_neg (activeWeights_pos hsigma) ?_
    rwa [condensed_eq_hessian]
  obtain ⟨hok, hpositive⟩ := hA.refactor_negative hholds hlarge
  generalize hresult : S.factorChanged slots = result
  obtain ⟨S', outcome⟩ := result
  obtain ⟨-, houtcome⟩ := factorChanged_cases hF hresult
  rcases houtcome with ⟨-, ⟨hall, -⟩ | ⟨-, herror⟩⟩ | ⟨e, herror, -⟩
  · omega
  · exact herror
  · rw [hok] at herror
    cases herror

theorem update_negative (h : Consistent Q A S) (hscratch : S.factored = false) (hsigma : ∀ r, 0 < sigma.get r)
    (hn : 0 < n) (hneg : PosDef (-hessian Q A n active sigma rho)) :
    (S.update Q A active sigma rho).2 = .error .notPositiveDefinite := by
  obtain ⟨he, -⟩ := @assemble_spec _ _ _ _ _ _ _ active sigma rho h.frame
  obtain ⟨hA, hholds⟩ := h.analysis_assemble active sigma rho
  unfold update
  rw [if_neg (by rw [hscratch]; exact Bool.false_ne_true)]
  exact factorChanged_negative rfl (h.frame.of_same (size_assemble S Q A active sigma rho) rfl rfl rfl rfl) hA hholds
    (he.of_same rfl rfl rfl) hsigma hn hneg

end AugmentedSystem

namespace ReducedSystem

variable {S : ReducedSystem K n m}

theorem refactor_negative (h : Fits Q A S) (hn : 0 < n) (hneg : PosDef (-hessian Q A n active sigma rho)) :
    (S.refactor Q A active sigma rho).2 = .error .notPositiveDefinite := by
  generalize hF : S.factors.updateValues (List.range S.matrix.nnz) (S.assemble Q A active sigma rho).toList = F
  obtain ⟨hA, hholds⟩ := h.analysis_assemble hF
  have hdim : F.dim = n := hA.dim_eq.trans h.frame.matrix_cols
  obtain ⟨hok, hpositive⟩ := hA.refactor_negative hholds (by rwa [hdim, leading_assemble h.frame])
  generalize hresult : S.refactor Q A active sigma rho = result
  obtain ⟨S', outcome⟩ := result
  obtain ⟨rfl, ⟨-, hcheck⟩ | ⟨e, herror, -⟩⟩ := refactor_cases hF hresult
  · rw [hcheck, checkInertia, if_neg]
    show F.refactor.1.positive ≠ n
    omega
  · rw [hok] at herror
    cases herror

theorem update_negative (h : Fits Q A S) (hscratch : S.factored = false) (hn : 0 < n)
    (hneg : PosDef (-hessian Q A n active sigma rho)) (c : Settings K) :
    (S.update Q A active sigma rho c).2.1 = .error .notPositiveDefinite := by
  have hrefactor := refactor_negative h hn hneg
  generalize hresult : S.update Q A active sigma rho c = result
  obtain ⟨S', outcome, log⟩ := result
  rcases update_cases hresult with ⟨-, heq, -⟩ | ⟨hkeep, -⟩
  · rw [heq] at hrefactor
    exact hrefactor
  · exact absurd (.inl hscratch) hkeep

end ReducedSystem

/-- An engine that starts from scratch refuses a negative definite matrix for its signs. -/
theorem NewtonEngine.Consistent.answer_negative {engine : NewtonEngine K n m} {request : NewtonRequest K m}
    (h : engine.Consistent Q A) (hsigma : request.PositivePenalties) (hn : 0 < n)
    (hneg : PosDef (-request.matrix Q A n)) (c : Settings K) :
    (engine.invalidate.answer Q A request c).2.1 = .error .notPositiveDefinite := by
  cases engine with
  | augmented S => exact AugmentedSystem.update_negative (AugmentedSystem.Consistent.invalidate h) rfl hsigma hn hneg
  | reduced S =>
      exact ReducedSystem.update_negative (ReducedSystem.Consistent.invalidate h).toFits rfl hn hneg c

end AugLag
