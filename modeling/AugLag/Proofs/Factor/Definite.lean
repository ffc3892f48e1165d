import AugLag.Proofs.Factor.Pivots

/-!
# Definite matrices

Positive definiteness shows in the signs of the pivots. The number of pivots that are not positive bounds the
dimension of a space on which the quadratic form of the matrix is nowhere positive.
-/

namespace AugLag

open scoped Matrix

variable {K : Type} [Field K] [LinearOrder K] {N : Nat}

/-- The quadratic form is positive. Unlike the notion of the library this asks for no star operation on the scalars. -/
def PosDef (M : Matrix (Fin N) (Fin N) K) : Prop := ∀ x, x ≠ 0 → 0 < x ⬝ᵥ M *ᵥ x

/-- The quadratic form is nowhere negative. -/
def PosSemidef (M : Matrix (Fin N) (Fin N) K) : Prop := ∀ x, 0 ≤ x ⬝ᵥ M *ᵥ x

theorem PosDef.posSemidef {M : Matrix (Fin N) (Fin N) K} (h : PosDef M) : PosSemidef M := by
  intro x
  by_cases hx : x = 0
  · rw [hx, zero_dotProduct]
  · exact (h x hx).le

theorem PosDef.eq_zero {M : Matrix (Fin N) (Fin N) K} (h : PosDef M) {x : Fin N → K} (hx : x ⬝ᵥ M *ᵥ x ≤ 0) : x = 0 := by
  by_contra hne
  exact absurd (h x hne) (not_lt.mpr hx)

/-- A positive definite system has at most one solution. -/
theorem PosDef.mulVec_injective {M : Matrix (Fin N) (Fin N) K} (h : PosDef M) : Function.Injective (M *ᵥ ·) := by
  intro x y hxy
  have hdiff : M *ᵥ (x - y) = 0 := by
    rw [Matrix.mulVec_sub]
    exact sub_eq_zero.mpr hxy
  refine sub_eq_zero.mp (h.eq_zero ?_)
  rw [hdiff, dotProduct_zero]

theorem posDef_one [IsStrictOrderedRing K] : PosDef (1 : Matrix (Fin N) (Fin N) K) := by
  intro x hx
  rw [Matrix.one_mulVec]
  obtain ⟨i, hi⟩ := Function.ne_iff.mp hx
  exact Finset.sum_pos' (fun i _ => mul_self_nonneg _) ⟨i, Finset.mem_univ i, mul_self_pos.mpr hi⟩

/-! ## Permutations -/

omit [LinearOrder K] in
theorem mulVec_submatrix (M : Matrix (Fin N) (Fin N) K) (π : Equiv.Perm (Fin N)) (x : Fin N → K) :
    M.submatrix π π *ᵥ (x ∘ π) = (M *ᵥ x) ∘ π := by
  rw [Matrix.submatrix_mulVec_equiv, Function.comp_assoc, π.self_comp_symm, Function.comp_id]

/-- The order of rows and columns does not matter. -/
theorem posDef_submatrix {M : Matrix (Fin N) (Fin N) K} (π : Equiv.Perm (Fin N)) : PosDef (M.submatrix π π) ↔ PosDef M := by
  refine ⟨fun h x hx => ?_, fun h x hx => ?_⟩
  · rw [← comp_equiv_dotProduct_comp_equiv x _ π, ← mulVec_submatrix]
    refine h _ fun hzero => hx ?_
    ext i
    have := congrFun hzero (π.symm i)
    simpa using this
  · have hsplit : x = (x ∘ π.symm) ∘ π := by
      ext i
      simp
    rw [hsplit, mulVec_submatrix, comp_equiv_dotProduct_comp_equiv]
    refine h _ fun hzero => hx ?_
    rw [hsplit, hzero]
    rfl

/-! ## Signs of the pivots -/

/-- Counting in a range, as a number of indices. -/
theorem countP_range_eq_card (p : Nat → Prop) [DecidablePred p] (N : Nat) :
    (List.range N).countP (fun t => p t) = Nat.card { t : Fin N // p t } := by
  have hcount : (List.range N).countP (fun t => p t) = Nat.count p N := by
    induction N with
    | zero => rfl
    | succ N ih => simp [List.range_succ, Nat.count_succ, ih, List.countP_cons]
  rw [hcount, Nat.count_eq_card_filter_range, Nat.card_eq_fintype_card, Fintype.card_subtype, Finset.card_filter, Finset.card_filter,
    Finset.sum_range]

theorem PivotVector.pos [IsStrictOrderedRing K] {M : Matrix (Fin N) (Fin N) K} {k : Fin N} {pivot : K} {v : Fin N → K}
    (h : PivotVector M k pivot v) (hM : PosDef M) : 0 < pivot := by
  have hne : v ≠ 0 := by
    intro hzero
    have hone := h.one
    rw [hzero] at hone
    exact zero_ne_one hone
  have hform := hM v hne
  rwa [h.dotProduct_eq h.zero, h.one, one_mul] at hform

variable {a ℓ : Nat → Nat → K} {d : Nat → K}

omit [LinearOrder K] in
theorem Eliminated.leading_eq (h : Eliminated a ℓ d N) :
    leading N a = leading N ℓ * Matrix.diagonal (fun t : Fin N => d t) * (leading N ℓ)ᵀ := by
  ext i j
  rw [Matrix.mul_apply]
  simp only [Matrix.mul_diagonal, Matrix.transpose_apply]
  rw [show leading N a i j = a i j from rfl, h i i.isLt j j.isLt, Finset.sum_range]
  rfl

omit [LinearOrder K] in
/-- The quadratic form is a sum of squares with the pivots as weights. -/
theorem Eliminated.dotProduct_eq (h : Eliminated a ℓ d N) (z : Fin N → K) :
    z ⬝ᵥ leading N a *ᵥ z = ∑ t : Fin N, d t * ((leading N ℓ)ᵀ *ᵥ z) t ^ 2 := by
  rw [h.leading_eq, ← Matrix.mulVec_mulVec, ← Matrix.mulVec_mulVec, Matrix.dotProduct_mulVec, ← Matrix.mulVec_transpose,
    dotProduct]
  refine Finset.sum_congr rfl fun t _ => ?_
  rw [Matrix.mulVec_diagonal]
  ring

variable [IsStrictOrderedRing K]

theorem Eliminated.form_pos (h : Eliminated a ℓ d N) (hℓ : UnitLower ℓ) {z : Fin N → K}
    (hz : ∀ t : Fin N, 0 < d t ∨ ((leading N ℓ)ᵀ *ᵥ z) t = 0) (hne : z ≠ 0) : 0 < z ⬝ᵥ leading N a *ᵥ z := by
  rw [h.dotProduct_eq]
  have hterm : ∀ t : Fin N, 0 ≤ d t * ((leading N ℓ)ᵀ *ᵥ z) t ^ 2 := by
    intro t
    rcases hz t with hpos | hzero
    · exact mul_nonneg hpos.le (sq_nonneg _)
    · rw [hzero]
      simp
  obtain ⟨t, ht⟩ : ∃ t, ((leading N ℓ)ᵀ *ᵥ z) t ≠ 0 := by
    by_contra hall
    simp only [ne_eq, not_exists, not_not] at hall
    exact hne (hℓ.eq_zero (funext hall))
  refine Finset.sum_pos' (fun t _ => hterm t) ⟨t, Finset.mem_univ t, ?_⟩
  exact mul_pos ((hz t).resolve_right ht) (sq_pos_of_ne_zero ht)

/-- Positive pivots are those of a positive definite matrix. -/
theorem Eliminated.posDef (h : Eliminated a ℓ d N) (hℓ : UnitLower ℓ) (hd : ∀ t < N, 0 < d t) :
    PosDef (leading N a) :=
  fun _ hx => h.form_pos hℓ (fun t => .inl (hd t t.isLt)) hx

/-- The form is positive somewhere on a space of larger dimension than the number of pivots that are not positive. -/
theorem Eliminated.exists_pos (h : Eliminated a ℓ d N) (hℓ : UnitLower ℓ) {V : Type} [AddCommGroup V] [Module K V]
    [FiniteDimensional K V] (f : V →ₗ[K] (Fin N → K)) (hf : Function.Injective f)
    (hdim : Fintype.card { t : Fin N // ¬0 < d t } < Module.finrank K V) :
    ∃ z, 0 < f z ⬝ᵥ leading N a *ᵥ f z := by
  let restrict : (Fin N → K) →ₗ[K] ({ t : Fin N // ¬0 < d t } → K) := LinearMap.funLeft K K Subtype.val
  let g : V →ₗ[K] ({ t : Fin N // ¬0 < d t } → K) := restrict ∘ₗ (Matrix.mulVecLin (leading N ℓ)ᵀ) ∘ₗ f
  have hker : LinearMap.ker g ≠ ⊥ := by
    refine LinearMap.ker_ne_bot_of_finrank_lt ?_
    rwa [Module.finrank_fintype_fun_eq_card]
  obtain ⟨z, hz, hne⟩ := Submodule.exists_mem_ne_zero_of_ne_bot hker
  refine ⟨z, h.form_pos hℓ (fun t => ?_) fun hzero => hne (hf (hzero.trans (map_zero f).symm))⟩
  by_cases ht : 0 < d t
  · exact .inl ht
  · exact .inr (congrFun (LinearMap.mem_ker.mp hz) ⟨t, ht⟩)

end AugLag
