import AugLag.Proofs.Factor.Definite
import Mathlib.Analysis.Matrix.Spectrum
import Mathlib.LinearAlgebra.QuadraticForm.Signature

/-!
# Leading minors and inertia

The leading principal minors of a matrix are products of its pivots, so that elimination goes on as long as none of
them is zero. By Sylvester's law of inertia as many pivots as eigenvalues are positive, in whatever order the rows
are eliminated.
-/

namespace AugLag

open scoped Matrix

variable {K : Type} [Field K] {N : Nat} {a ℓ : Nat → Nat → K} {d : Nat → K}

/-! ## Leading principal minors -/

/-- The determinant of the rows and columns up to place `k`. -/
def leadingMinor (M : Matrix (Fin N) (Fin N) K) (k : Fin N) : K :=
  (M.submatrix (Fin.castLE k.isLt) (Fin.castLE k.isLt)).det

theorem Eliminated.det_leading (h : Eliminated a ℓ d N) (hℓ : UnitLower ℓ) :
    (leading N a).det = ∏ t ∈ Finset.range N, d t := by
  rw [h.leading_eq, Matrix.det_mul, Matrix.det_mul, Matrix.det_transpose, hℓ.det_leading, Matrix.det_diagonal, one_mul,
    mul_one, Finset.prod_range]

theorem Eliminated.det_leading_ne_zero (h : Eliminated a ℓ d N) (hℓ : UnitLower ℓ) (hd : ∀ t < N, d t ≠ 0) :
    (leading N a).det ≠ 0 := by
  rw [h.det_leading hℓ]
  exact Finset.prod_ne_zero_iff.mpr fun t ht => hd t (Finset.mem_range.mp ht)

theorem Eliminated.leadingMinor_ne_zero (h : Eliminated a ℓ d N) (hℓ : UnitLower ℓ) (hd : ∀ t < N, d t ≠ 0)
    (k : Fin N) : leadingMinor (leading N a) k ≠ 0 :=
  (h.mono hℓ k.isLt).det_leading_ne_zero hℓ fun t ht => hd t (by omega)

/-- A pivot that is zero makes the minor of its place zero. -/
theorem PivotVector.leadingMinor_eq_zero {M : Matrix (Fin N) (Fin N) K} {k : Fin N} {v : Fin N → K}
    (h : PivotVector M k 0 v) : leadingMinor M k = 0 := by
  let w : Fin (k + 1) → K := v ∘ Fin.castLE k.isLt
  have hw : w ≠ 0 := by
    intro hzero
    have hlast := congrFun hzero (Fin.last k)
    exact one_ne_zero (h.one.symm.trans hlast)
  -- Behind place `k` the vector is zero, so that the rows need not be cut off.
  have hrow : ∀ i, (M.submatrix (Fin.castLE k.isLt) (Fin.castLE k.isLt) *ᵥ w) i = (M *ᵥ v) (Fin.castLE k.isLt i) := by
    intro i
    refine Fintype.sum_of_injective (Fin.castLE k.isLt) (Fin.castLE_injective _) _ _ (fun j hj => ?_) fun j => rfl
    have hkj : k < j := by
      by_contra hle
      exact hj ⟨⟨j, Nat.lt_succ_of_le (not_lt.mp hle)⟩, rfl⟩
    rw [h.zero j hkj, mul_zero]
  refine Matrix.exists_mulVec_eq_zero_iff.mp ⟨w, hw, funext fun i => (hrow i).trans ?_⟩
  rcases (Nat.le_of_lt_succ i.isLt).lt_or_eq with hlt | heq
  · exact h.image_zero _ hlt
  · have hik : Fin.castLE k.isLt i = k := Fin.ext heq
    rw [hik]
    exact h.image_pivot

/-! ## The law of inertia -/

variable [LinearOrder K] [IsStrictOrderedRing K]

/-- A congruent diagonal matrix has the signs of the quadratic form on its diagonal. -/
theorem sigPos_of_congruent {M S : Matrix (Fin N) (Fin N) K} {w : Fin N → K} (hM : M = S * Matrix.diagonal w * Sᵀ)
    (hS : S.det ≠ 0) : sigPos M.toQuadraticForm' = Nat.card { t // 0 < w t } := by
  have hunit : IsUnit Sᵀ.det := by
    rw [Matrix.det_transpose]
    exact isUnit_iff_ne_zero.mpr hS
  have hsquares : ∀ z, QuadraticMap.weightedSumSquares K w (Sᵀ *ᵥ z) = M.toQuadraticForm' z := by
    intro z
    calc QuadraticMap.weightedSumSquares K w (Sᵀ *ᵥ z)
        = (Sᵀ *ᵥ z) ⬝ᵥ Matrix.diagonal w *ᵥ (Sᵀ *ᵥ z) := by
          rw [QuadraticMap.weightedSumSquares_apply]
          refine Finset.sum_congr rfl fun t _ => ?_
          rw [Matrix.mulVec_diagonal, smul_eq_mul, mul_left_comm]
      _ = z ⬝ᵥ M *ᵥ z := by
          rw [hM, ← Matrix.mulVec_mulVec, ← Matrix.mulVec_mulVec, Matrix.dotProduct_mulVec z S, ← Matrix.mulVec_transpose]
      _ = M.toQuadraticForm' z := (Matrix.toLinearMap₂'_apply' M z z).symm
  have hequiv : QuadraticMap.Equivalent M.toQuadraticForm' (QuadraticMap.weightedSumSquares K w) :=
    ⟨{ Matrix.toLinearEquiv' Sᵀ (Matrix.invertibleOfIsUnitDet _ hunit) with map_app' := hsquares }⟩
  exact QuadraticForm.sigPos_of_equiv_weightedSumSquares hequiv

/-- The order of elimination has no influence on the number of positive pivots. -/
theorem Eliminated.sigPos_eq (h : Eliminated a ℓ d N) (hℓ : UnitLower ℓ) {M : Matrix (Fin N) (Fin N) K}
    {σ : Equiv.Perm (Fin N)} (ha : leading N a = M.submatrix σ σ) :
    sigPos M.toQuadraticForm' = Nat.card { t : Fin N // 0 < d t } := by
  have hdet : ((leading N ℓ).submatrix σ.symm id).det ≠ 0 := by
    rw [Matrix.det_permute, hℓ.det_leading, mul_one]
    rcases Int.units_eq_one_or (Equiv.Perm.sign σ.symm) with hsign | hsign
    · simp [hsign]
    · simp [hsign]
  refine sigPos_of_congruent (w := fun t : Fin N => d t) ?_ hdet
  have hback : M = (leading N a).submatrix σ.symm σ.symm := by
    rw [ha, Matrix.submatrix_submatrix, Equiv.self_comp_symm, Matrix.submatrix_id_id]
  rw [hback, h.leading_eq]
  rfl

omit [LinearOrder K] [IsStrictOrderedRing K] in
/-- A homomorphism of fields takes factors to factors. -/
theorem Eliminated.map {K' : Type} [Field K'] (φ : K →+* K') {k : Nat} (h : Eliminated a ℓ d k) :
    Eliminated (fun i j => φ (a i j)) (fun i t => φ (ℓ i t)) (fun t => φ (d t)) k := by
  intro i hi j hj
  simp only [h i hi j hj, map_sum, map_mul]

omit [LinearOrder K] [IsStrictOrderedRing K] in
theorem UnitLower.map {K' : Type} [Field K'] (φ : K →+* K') (h : UnitLower ℓ) : UnitLower fun i t => φ (ℓ i t) :=
  ⟨fun i => by rw [h.one, map_one], fun i t hit => by rw [h.zero i t hit, map_zero]⟩

/-- The positive directions of a real symmetric matrix are those of its positive eigenvalues. -/
theorem sigPos_eq_card_eigenvalues {M : Matrix (Fin N) (Fin N) ℝ} (hM : M.IsHermitian) :
    sigPos M.toQuadraticForm' = Nat.card { i // 0 < hM.eigenvalues i } := by
  let U : Matrix (Fin N) (Fin N) ℝ := hM.eigenvectorUnitary
  have hU : U * Uᵀ = 1 := Unitary.coe_mul_star_self hM.eigenvectorUnitary
  have hdet : U.det ≠ 0 := by
    intro hzero
    have hone := congrArg Matrix.det hU
    rw [Matrix.det_mul, hzero, zero_mul, Matrix.det_one] at hone
    exact zero_ne_one hone
  exact sigPos_of_congruent hM.spectral_theorem hdet

end AugLag
