import AugLag.Proofs.Factor.Definite

/-!
# Saddle point matrices

A matrix with the blocks `P`, `Bᵀ`, `B` and `-W`, where `W` is a positive diagonal, is a way to work with
`P + Bᵀ W⁻¹ B` without forming it. Its pivots have one sign on the rows of `P` and the other on those of `W` when `P` is
positive definite, in whatever order they are eliminated. Conversely the number of positive pivots shows whether
`P + Bᵀ W⁻¹ B` is positive definite.
-/

namespace AugLag

open scoped Matrix

variable {K : Type} [Field K] {n m : Nat}

/-- The table has these blocks. -/
structure Saddle (T : Nat → Nat → K) (P : Matrix (Fin n) (Fin n) K) (B : Matrix (Fin m) (Fin n) K) (W : Fin m → K) :
    Prop where
  cost : ∀ i j : Fin n, T i j = P i j
  column : ∀ (i : Fin n) (r : Fin m), T i (n + r) = B r i
  row : ∀ (r : Fin m) (i : Fin n), T (n + r) i = B r i
  diag : ∀ r s : Fin m, T (n + r) (n + s) = if r = s then -W r else 0

/-- The matrix `P + Bᵀ W⁻¹ B`. -/
def condensed (P : Matrix (Fin n) (Fin n) K) (B : Matrix (Fin m) (Fin n) K) (W : Fin m → K) :
    Matrix (Fin n) (Fin n) K :=
  P + Bᵀ * Matrix.diagonal (fun r => (W r)⁻¹) * B

theorem dotProduct_append (u x : Fin n → K) (v y : Fin m → K) :
    Fin.append u v ⬝ᵥ Fin.append x y = u ⬝ᵥ x + v ⬝ᵥ y := by
  simp only [dotProduct, Fin.sum_univ_add, Fin.append_left, Fin.append_right]

theorem append_eq_zero {x : Fin n → K} {y : Fin m → K} (h : Fin.append x y = 0) : x = 0 ∧ y = 0 := by
  refine ⟨funext fun i => ?_, funext fun r => ?_⟩
  · have := congrFun h (Fin.castAdd m i)
    rwa [Fin.append_left] at this
  · have := congrFun h (Fin.natAdd n r)
    rwa [Fin.append_right] at this

variable {T : Nat → Nat → K} {P : Matrix (Fin n) (Fin n) K} {B : Matrix (Fin m) (Fin n) K} {W : Fin m → K}

namespace Saddle

theorem mulVec_append (h : Saddle T P B W) (x : Fin n → K) (y : Fin m → K) :
    leading (n + m) T *ᵥ Fin.append x y = Fin.append (P *ᵥ x + Bᵀ *ᵥ y) (B *ᵥ x - fun r => W r * y r) := by
  funext i
  refine Fin.addCases (fun i => ?_) (fun r => ?_) i
  · rw [Fin.append_left, Matrix.mulVec, dotProduct, Fin.sum_univ_add]
    simp only [Fin.append_left, Fin.append_right, leading, Matrix.of_apply, Fin.val_castAdd, Fin.val_natAdd, h.cost,
      h.column]
    rfl
  · rw [Fin.append_right, Matrix.mulVec, dotProduct, Fin.sum_univ_add]
    simp only [Fin.append_left, Fin.append_right, leading, Matrix.of_apply, Fin.val_castAdd, Fin.val_natAdd, h.row,
      h.diag, ite_mul, zero_mul, Finset.sum_ite_eq, Finset.mem_univ, if_true, neg_mul]
    rw [← sub_eq_add_neg]
    rfl

/-- A vector with the other sign on the second block. -/
def flip (z : Fin (n + m) → K) : Fin (n + m) → K :=
  Fin.append (fun i => z (Fin.castAdd m i)) fun r => -z (Fin.natAdd n r)

@[simp] theorem flip_castAdd (z : Fin (n + m) → K) (i : Fin n) : flip z (Fin.castAdd m i) = z (Fin.castAdd m i) :=
  Fin.append_left ..

@[simp] theorem flip_natAdd (z : Fin (n + m) → K) (r : Fin m) : flip z (Fin.natAdd n r) = -z (Fin.natAdd n r) :=
  Fin.append_right ..

theorem flip_eq_zero {z : Fin (n + m) → K} {i : Fin (n + m)} (h : z i = 0) : flip z i = 0 := by
  induction i using Fin.addCases with
  | left i => rw [flip_castAdd, h]
  | right r => rw [flip_natAdd, h, neg_zero]

/-- Turning the sign of the second part makes the blocks off the diagonal cancel. -/
theorem dotProduct_flip (h : Saddle T P B W) (x : Fin n → K) (y : Fin m → K) :
    Fin.append x (-y) ⬝ᵥ leading (n + m) T *ᵥ Fin.append x y = x ⬝ᵥ P *ᵥ x + ∑ r, W r * (y r * y r) := by
  have hsq : (-y) ⬝ᵥ (B *ᵥ x - fun r => W r * y r) = -(y ⬝ᵥ B *ᵥ x) + ∑ r, W r * (y r * y r) := by
    rw [neg_dotProduct, dotProduct_sub, neg_sub, sub_eq_neg_add, add_right_inj]
    refine Finset.sum_congr rfl fun r _ => ?_
    ring
  rw [h.mulVec_append, dotProduct_append, dotProduct_add, hsq, Matrix.dotProduct_transpose_mulVec]
  ring

theorem condensed_form (x : Fin n → K) :
    x ⬝ᵥ condensed P B W *ᵥ x = x ⬝ᵥ P *ᵥ x + ∑ r, (W r)⁻¹ * ((B *ᵥ x) r * (B *ᵥ x) r) := by
  rw [condensed, Matrix.add_mulVec, dotProduct_add, ← Matrix.mulVec_mulVec, ← Matrix.mulVec_mulVec,
    Matrix.dotProduct_transpose_mulVec, dotProduct_comm, add_right_inj]
  refine Finset.sum_congr rfl fun r _ => ?_
  rw [Matrix.mulVec_diagonal]
  ring

/-- A point that is moved along with the constraints has the form of the condensed matrix, up to the rest. -/
theorem dotProduct_shifted (h : Saddle T P B W) (hW : ∀ r, W r ≠ 0) (x : Fin n → K) (w : Fin m → K) :
    Fin.append x (fun r => (W r)⁻¹ * (B *ᵥ x) r + w r) ⬝ᵥ
        leading (n + m) T *ᵥ Fin.append x (fun r => (W r)⁻¹ * (B *ᵥ x) r + w r) =
      x ⬝ᵥ condensed P B W *ᵥ x - ∑ r, W r * (w r * w r) := by
  rw [h.mulVec_append, dotProduct_append, dotProduct_add, Matrix.dotProduct_transpose_mulVec, condensed_form, add_assoc,
    add_sub_assoc, add_right_inj]
  simp only [dotProduct, Pi.sub_apply]
  rw [← Finset.sum_add_distrib, ← Finset.sum_sub_distrib]
  refine Finset.sum_congr rfl fun r _ => ?_
  have hr := hW r
  field_simp
  ring

/-- The multiples of a point `x`, moved along with the constraints up to `w`. -/
def shifted (B : Matrix (Fin m) (Fin n) K) (W : Fin m → K) (x : Fin n → K) :
    (K × (Fin m → K)) →ₗ[K] (Fin (n + m) → K) where
  toFun cw := Fin.append (cw.1 • x) fun r => (W r)⁻¹ * (B *ᵥ (cw.1 • x)) r + cw.2 r
  map_add' cw cw' := by
    funext i
    refine Fin.addCases (fun i => ?_) (fun r => ?_) i
    · simp only [Prod.fst_add, Fin.append_left, add_smul, Pi.add_apply]
    · simp only [Prod.fst_add, Prod.snd_add, Fin.append_right, add_smul, Matrix.mulVec_add, Pi.add_apply]
      ring
  map_smul' c cw := by
    funext i
    refine Fin.addCases (fun i => ?_) (fun r => ?_) i
    · simp only [Prod.smul_fst, Fin.append_left, smul_eq_mul, Pi.smul_apply, RingHom.id_apply, mul_assoc]
    · simp only [Prod.smul_fst, Prod.smul_snd, Fin.append_right, smul_eq_mul, Matrix.mulVec_smul, Pi.smul_apply,
        RingHom.id_apply]
      ring

theorem shifted_injective {x : Fin n → K} (hx : x ≠ 0) : Function.Injective (shifted B W x) := by
  rw [← LinearMap.ker_eq_bot, LinearMap.ker_eq_bot']
  rintro ⟨c, w⟩ hzero
  have happend : Fin.append (c • x) (fun r => (W r)⁻¹ * (B *ᵥ (c • x)) r + w r) = 0 := hzero
  obtain ⟨hcx, hw⟩ := append_eq_zero happend
  obtain rfl : c = 0 := (smul_eq_zero.mp hcx).resolve_right hx
  refine Prod.ext rfl (funext fun r => ?_)
  have := congrFun hw r
  simpa using this

theorem shifted_form (h : Saddle T P B W) (hW : ∀ r, W r ≠ 0) (x : Fin n → K) (c : K) (w : Fin m → K) :
    shifted B W x (c, w) ⬝ᵥ leading (n + m) T *ᵥ shifted B W x (c, w) =
      c * c * (x ⬝ᵥ condensed P B W *ᵥ x) - ∑ r, W r * (w r * w r) := by
  refine (h.dotProduct_shifted hW (c • x) w).trans ?_
  rw [Matrix.mulVec_smul, smul_dotProduct, dotProduct_smul, smul_eq_mul, smul_eq_mul, mul_assoc]

/-- A solution of the large system contains one of the condensed system. -/
theorem mulVec_condensed (h : Saddle T P B W) (hW : ∀ r, W r ≠ 0) {x b : Fin n → K} {y : Fin m → K}
    (hsolve : leading (n + m) T *ᵥ Fin.append x y = Fin.append b 0) : condensed P B W *ᵥ x = b := by
  rw [h.mulVec_append] at hsolve
  have hcost : P *ᵥ x + Bᵀ *ᵥ y = b := by
    funext i
    have := congrFun hsolve (Fin.castAdd m i)
    rwa [Fin.append_left, Fin.append_left] at this
  have hy : y = Matrix.diagonal (fun r => (W r)⁻¹) *ᵥ (B *ᵥ x) := by
    funext r
    have hrow := congrFun hsolve (Fin.natAdd n r)
    rw [Fin.append_right, Fin.append_right] at hrow
    rw [Matrix.mulVec_diagonal, sub_eq_zero.mp hrow, inv_mul_cancel_left₀ (hW r)]
  rw [condensed, Matrix.add_mulVec, ← Matrix.mulVec_mulVec, ← Matrix.mulVec_mulVec, ← hy]
  exact hcost

variable [LinearOrder K] [IsStrictOrderedRing K]

/-- With a positive definite first block the flipped form is positive. -/
theorem flip_pos (h : Saddle T P B W) (hP : PosDef P) (hW : ∀ r, 0 < W r) {z : Fin (n + m) → K} (hne : z ≠ 0) :
    0 < flip z ⬝ᵥ leading (n + m) T *ᵥ z := by
  obtain ⟨x, y, rfl⟩ : ∃ (x : Fin n → K) (y : Fin m → K), z = Fin.append x y :=
    ⟨_, _, Fin.append_castAdd_natAdd.symm⟩
  have hflip : flip (Fin.append x y) = Fin.append x (-y) := by
    simp only [flip, Fin.append_left, Fin.append_right]
    rfl
  rw [hflip, h.dotProduct_flip]
  have hterm : ∀ r, 0 ≤ W r * (y r * y r) := fun r => mul_nonneg (hW r).le (mul_self_nonneg _)
  by_cases hx : x = 0
  · have hy : y ≠ 0 := by
      rintro rfl
      refine hne ?_
      rw [hx]
      exact Fin.append_castAdd_natAdd (f := 0)
    obtain ⟨r, hr⟩ := Function.ne_iff.mp hy
    rw [hx, zero_dotProduct, zero_add]
    exact Finset.sum_pos' (fun r _ => hterm r) ⟨r, Finset.mem_univ r, mul_pos (hW r) (mul_self_pos.mpr hr)⟩
  · exact add_pos_of_pos_of_nonneg (hP x hx) (Finset.sum_nonneg fun r _ => hterm r)

/-- In whatever order the rows are eliminated, a pivot is positive on the first block and negative on the second. -/
theorem pivot_sign (h : Saddle T P B W) (hP : PosDef P) (hW : ∀ r, 0 < W r) {π : Equiv.Perm (Fin (n + m))}
    {k : Fin (n + m)} {pivot : K} {v : Fin (n + m) → K}
    (hv : PivotVector ((leading (n + m) T).submatrix π π) k pivot v) :
    if (π k : Nat) < n then 0 < pivot else pivot < 0 := by
  obtain ⟨z, rfl⟩ : ∃ z : Fin (n + m) → K, v = z ∘ π :=
    ⟨v ∘ π.symm, by rw [Function.comp_assoc, Equiv.symm_comp_self, Function.comp_id]⟩
  have hzk : z (π k) = 1 := hv.one
  have hne : z ≠ 0 := by
    rintro rfl
    exact zero_ne_one hzk
  have hpos := h.flip_pos hP hW hne
  -- The flipped vector ends where the vector of the pivot ends.
  have hform : flip z ⬝ᵥ leading (n + m) T *ᵥ z = flip z (π k) * pivot := by
    rw [← comp_equiv_dotProduct_comp_equiv _ _ π, ← mulVec_submatrix]
    exact hv.dotProduct_eq fun i hi => flip_eq_zero (hv.zero i hi)
  rw [hform] at hpos
  generalize hk : π k = i at hpos hzk
  clear hk
  induction i using Fin.addCases with
  | left i =>
      rw [if_pos (show (Fin.castAdd m i : Nat) < n from i.isLt)]
      rwa [flip_castAdd, hzk, one_mul] at hpos
  | right r =>
      rw [if_neg (show ¬(Fin.natAdd n r : Nat) < n from not_lt.mpr (Nat.le_add_right n r))]
      rw [flip_natAdd, hzk, neg_one_mul] at hpos
      exact neg_pos.mp hpos

/-- There is a positive pivot for each row of the first block. -/
theorem card_pos (h : Saddle T P B W) (hP : PosDef P) (hW : ∀ r, 0 < W r) {π : Equiv.Perm (Fin (n + m))}
    {a ℓ : Nat → Nat → K} {d : Nat → K} (ha : leading (n + m) a = (leading (n + m) T).submatrix π π)
    (helim : Eliminated a ℓ d (n + m)) (hℓ : UnitLower ℓ) : Nat.card { t : Fin (n + m) // 0 < d t } = n := by
  have hiff : ∀ t : Fin (n + m), 0 < d t ↔ (π t : Nat) < n := by
    intro t
    obtain ⟨v, hv⟩ := (helim.mono hℓ t.isLt).exists_pivotVector hℓ
    rw [ha] at hv
    have hsign := h.pivot_sign hP hW hv
    by_cases ht : (π t : Nat) < n
    · rw [if_pos ht] at hsign
      exact iff_of_true hsign ht
    · rw [if_neg ht] at hsign
      exact iff_of_false hsign.not_gt ht
  have hcard := Nat.card_congr (@Equiv.subtypeEquiv _ _ _ (fun i : Fin (n + m) => (i : Nat) < n) π hiff)
  rw [hcard, Nat.card_eq_fintype_card]
  exact Fintype.card_fin_lt_of_le (Nat.le_add_right n m)

/-- If no more pivots than rows of the second block fail to be positive, the condensed matrix is positive definite. -/
theorem posDef_condensed (h : Saddle T P B W) (hW : ∀ r, 0 < W r) {π : Equiv.Perm (Fin (n + m))}
    {a ℓ : Nat → Nat → K} {d : Nat → K} (ha : leading (n + m) a = (leading (n + m) T).submatrix π π)
    (helim : Eliminated a ℓ d (n + m)) (hℓ : UnitLower ℓ)
    (hcount : Nat.card { t : Fin (n + m) // ¬0 < d t } ≤ m) : PosDef (condensed P B W) := by
  intro x hx
  by_contra hnot
  have hform := not_lt.mp hnot
  have hne : ∀ r, W r ≠ 0 := fun r => (hW r).ne'
  -- On the shifted multiples the form is nowhere positive, and they have one dimension too many.
  let f := LinearMap.funLeft K K π ∘ₗ shifted B W x
  have hf : Function.Injective f :=
    (LinearMap.funLeft_injective_of_surjective K K π π.surjective).comp (shifted_injective hx)
  have hdim : Fintype.card { t : Fin (n + m) // ¬0 < d t } < Module.finrank K (K × (Fin m → K)) := by
    rw [Module.finrank_prod, Module.finrank_self, Module.finrank_fintype_fun_eq_card, Fintype.card_fin]
    rw [Nat.card_eq_fintype_card] at hcount
    omega
  obtain ⟨⟨c, w⟩, hpos⟩ := helim.exists_pos hℓ f hf hdim
  have hvalue : f (c, w) ⬝ᵥ leading (n + m) a *ᵥ f (c, w) =
      c * c * (x ⬝ᵥ condensed P B W *ᵥ x) - ∑ r, W r * (w r * w r) := by
    have hfw : f (c, w) = shifted B W x (c, w) ∘ π := rfl
    rw [ha, hfw, mulVec_submatrix, comp_equiv_dotProduct_comp_equiv, h.shifted_form hne]
  rw [hvalue] at hpos
  have hsum : 0 ≤ ∑ r, W r * (w r * w r) :=
    Finset.sum_nonneg fun r _ => mul_nonneg (hW r).le (mul_self_nonneg _)
  have hcc := mul_nonpos_of_nonneg_of_nonpos (mul_self_nonneg c) hform
  linarith

end Saddle
end AugLag
