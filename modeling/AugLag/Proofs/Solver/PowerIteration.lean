import Mathlib
import AugLag.Proofs.Solver.Spectrum

/-!
# The run of the power iteration

The iteration ends as soon as the image of its vector vanishes or the estimate settles, and after a fixed number of steps
otherwise. In the first cases the estimate belongs to the vector at which the iteration ends. At the limit the vector has
been replaced once more, so that the estimate belongs to the vector before.
-/

namespace AugLag

open scoped Matrix

/-! ## Extreme eigenvalues -/

section Eigenvalues

variable {n : Nat} {A : Matrix (Fin n) (Fin n) ℝ} {b : ℝ}

open scoped Pointwise in
theorem mem_spectrum_sub_iff {t : ℝ} : b - t ∈ spectrum ℝ (b • 1 - A) ↔ t ∈ spectrum ℝ A := by
  have h : {b} - spectrum ℝ A = spectrum ℝ (algebraMap ℝ _ b - A) := spectrum.singleton_sub_eq A b
  rw [Algebra.algebraMap_eq_smul_one] at h
  rw [← h, Set.singleton_sub, Set.mem_image]
  constructor
  · rintro ⟨u, hu, heq⟩
    rwa [← sub_right_injective heq]
  · intro ht
    exact ⟨t, ht, rfl⟩

/-- A number bounds the eigenvalues from above exactly if it bounds the form of unit vectors. -/
theorem forall_spectrum_le_iff (hA : Aᵀ = A) :
    (∀ t ∈ spectrum ℝ A, t ≤ b) ↔ ∀ x : Fin n → ℝ, x ⬝ᵥ A *ᵥ x ≤ b * (x ⬝ᵥ x) := by
  have hsymm : (b • 1 - A).IsHermitian := by
    rw [Matrix.IsHermitian, Matrix.conjTranspose_eq_transpose_of_trivial, Matrix.transpose_sub, Matrix.transpose_smul,
      Matrix.transpose_one, hA]
  have hform (x : Fin n → ℝ) : star x ⬝ᵥ (b • 1 - A) *ᵥ x = b * (x ⬝ᵥ x) - x ⬝ᵥ A *ᵥ x := by
    rw [star_trivial, Matrix.sub_mulVec, Matrix.smul_mulVec, Matrix.one_mulVec, dotProduct_sub, dotProduct_smul,
      smul_eq_mul]
  have hspectrum := Matrix.posSemidef_iff_isHermitian_and_spectrum_nonneg (A := b • 1 - A)
  have hforms := Matrix.posSemidef_iff_dotProduct_mulVec (M := b • 1 - A)
  constructor
  · intro hle x
    have hnonneg : spectrum ℝ (b • 1 - A) ⊆ {a : ℝ | 0 ≤ a} := by
      intro u hu
      have ht : b - u ∈ spectrum ℝ A := mem_spectrum_sub_iff.mp (by rwa [sub_sub_cancel])
      have hu' := hle _ ht
      simp only [Set.mem_ofPred_eq]
      linarith
    have hx := (hforms.mp (hspectrum.mpr ⟨hsymm, hnonneg⟩)).2 x
    rw [hform] at hx
    linarith
  · intro hle t ht
    have hpos : (b • 1 - A).PosSemidef := by
      apply hforms.mpr
      refine ⟨hsymm, fun x => ?_⟩
      rw [hform]
      linarith [hle x]
    have hnonneg : 0 ≤ b - t := (hspectrum.mp hpos).2 (mem_spectrum_sub_iff.mpr ht)
    linarith

/-- A symmetric matrix has a least and a greatest eigenvalue, which bound the form of unit vectors. -/
theorem exists_extreme_eigenvalues (hn : n ≠ 0) (hA : Aᵀ = A) :
    ∃ low high, IsLeast (spectrum ℝ A) low ∧ IsGreatest (spectrum ℝ A) high ∧
      ∀ x : Fin n → ℝ, x ⬝ᵥ x = 1 → low ≤ x ⬝ᵥ A *ᵥ x ∧ x ⬝ᵥ A *ᵥ x ≤ high := by
  have hermitian : A.IsHermitian := by
    rw [Matrix.IsHermitian, Matrix.conjTranspose_eq_transpose_of_trivial, hA]
  have hfinite : (spectrum ℝ A).Finite := by
    rw [hermitian.spectrum_real_eq_range_eigenvalues]
    exact Set.finite_range _
  have hnonempty : (spectrum ℝ A).Nonempty := by
    rw [hermitian.spectrum_real_eq_range_eigenvalues]
    exact ⟨_, ⟨0, Nat.pos_of_ne_zero hn⟩, rfl⟩
  obtain ⟨low, hlow, hleast⟩ := Set.exists_min_image _ id hfinite hnonempty
  obtain ⟨high, hhigh, hgreatest⟩ := Set.exists_max_image _ id hfinite hnonempty
  refine ⟨low, high, ⟨hlow, hleast⟩, ⟨hhigh, hgreatest⟩, fun x hx => ⟨?_, ?_⟩⟩
  · have hneg : (-A)ᵀ = -A := by rw [Matrix.transpose_neg, hA]
    have hbound : ∀ t ∈ spectrum ℝ (-A), t ≤ -low := by
      intro t ht
      rw [← spectrum.neg_eq, Set.mem_neg] at ht
      have hle : low ≤ -t := hleast _ ht
      linarith
    have hle := (forall_spectrum_le_iff hneg).mp hbound x
    rw [Matrix.neg_mulVec, dotProduct_neg, hx] at hle
    linarith
  · have hle := (forall_spectrum_le_iff hA).mp hgreatest x
    rwa [hx, id, mul_one] at hle

end Eigenvalues

variable {K : Type} [ExactScalar K] {n : Nat} {Q : SparseMatrix K}

/-! ## The vectors of the iteration -/

/-- The vector after `k` steps. -/
def powerVector (Q : SparseMatrix K) (n : Nat) : Nat → Vector K n
  | 0 => powerStart n
  | k + 1 => unit (image Q (powerVector Q n k))

/-- The estimate after `k` steps. -/
def powerValue (Q : SparseMatrix K) (n : Nat) : Nat → K
  | 0 => 0
  | k + 1 => rayleigh Q (powerVector Q n k)

/-- Step `k` has somewhere to go, and its estimate differs from the one before. -/
structure Moves (Q : SparseMatrix K) (n k : Nat) : Prop where
  norm_ne : Vec.norm (image Q (powerVector Q n k)) ≠ 0
  unsettled : powerTolerance * |powerValue Q n (k + 1)| < |powerValue Q n (k + 1) - powerValue Q n k|

/-- The iteration with the vector that it ends at. -/
def powerRun (Q : SparseMatrix K) (c : K) : Nat → Vector K n → K → Vector K n × K
  | 0, v, mu => (v, mu)
  | steps + 1, v, mu =>
    let w := Q.symMulAdd v v (-1) c
    let next := Vec.dot v w
    let norm := Vec.norm w
    if norm == 0 || Scalar.abs (next - mu) ≤ powerTolerance * Scalar.abs next then (v, next)
    else powerRun Q c steps (w.map (· / norm)) next

theorem powerRun_snd (Q : SparseMatrix K) (c : K) (steps : Nat) (v : Vector K n) (mu : K) :
    (powerRun Q c steps v mu).2 = powerIterate Q c steps v mu := by
  induction steps generalizing v mu with
  | zero => rfl
  | succ steps ih =>
      rw [powerRun, powerIterate]
      split
      · rfl
      · exact ih _ _

/-- The vectors are unit vectors as long as the iteration has somewhere to go. -/
theorem unit_powerVector (hroots : ExactRoots K) (hn : n ≠ 0) {k : Nat} (h : ∀ j < k, Moves Q n j) :
    (powerVector Q n k).get ⬝ᵥ (powerVector Q n k).get = 1 := by
  cases k with
  | zero =>
      obtain ⟨s, hget, hs⟩ := exists_get_powerStart (K := K) hroots hn
      rw [powerVector, hget, smul_dotProduct, dotProduct_smul, smul_eq_mul, smul_eq_mul, ← mul_assoc, hs]
  | succ k => exact dotProduct_unit hroots (h k k.lt_succ_self).norm_ne

theorem powerValue_eq (hroots : ExactRoots K) (hn : n ≠ 0) {k : Nat} (h : ∀ j < k, Moves Q n j) :
    powerValue Q n (k + 1) =
      gershgorinBound Q n - (powerVector Q n k).get ⬝ᵥ Q.symMatrix n *ᵥ (powerVector Q n k).get :=
  rayleigh_unit Q (unit_powerVector hroots hn h)

/-- A step goes on if it moves, and ends the iteration otherwise. -/
theorem powerRun_succ (hQ : Q.Upper) (hcols : Q.cols = n) (steps k : Nat) :
    (Moves Q n k ∧ powerRun Q (gershgorinBound Q n) (steps + 1) (powerVector Q n k) (powerValue Q n k) =
        powerRun Q (gershgorinBound Q n) steps (powerVector Q n (k + 1)) (powerValue Q n (k + 1))) ∨
      ¬Moves Q n k ∧ powerRun Q (gershgorinBound Q n) (steps + 1) (powerVector Q n k) (powerValue Q n k) =
        (powerVector Q n k, powerValue Q n (k + 1)) := by
  have hdot : Vec.dot (powerVector Q n k) (image Q (powerVector Q n k)) = powerValue Q n (k + 1) := by
    rw [Vec.dot_eq_dotProduct, get_image hQ hcols]
    rfl
  rw [image] at hdot
  rw [powerRun]
  simp only [hdot, Scalar.abs_eq_abs]
  split
  · next hstop =>
      right
      refine ⟨fun hmoves => ?_, rfl⟩
      simp only [Bool.or_eq_true, decide_eq_true_eq, beq_iff_eq] at hstop
      rcases hstop with hzero | hsettled
      · exact hmoves.norm_ne hzero
      · exact hmoves.unsettled.not_ge hsettled
  · next hgo =>
      left
      simp only [Bool.or_eq_true, decide_eq_true_eq, beq_iff_eq, not_or, not_le] at hgo
      exact ⟨⟨hgo.1, hgo.2⟩, rfl⟩

/-- The iteration from step `k` on takes a number of steps. It either stops where there is no move, or at its limit. -/
theorem powerRun_cases (hQ : Q.Upper) (hcols : Q.cols = n) (steps k : Nat) :
    ∃ l, k ≤ l ∧ (∀ j, k ≤ j → j < l → Moves Q n j) ∧
      (l < k + steps ∧ ¬Moves Q n l ∧
          powerRun Q (gershgorinBound Q n) steps (powerVector Q n k) (powerValue Q n k) =
            (powerVector Q n l, powerValue Q n (l + 1)) ∨
        l = k + steps ∧ powerRun Q (gershgorinBound Q n) steps (powerVector Q n k) (powerValue Q n k) =
          (powerVector Q n l, powerValue Q n l)) := by
  induction steps generalizing k with
  | zero => exact ⟨k, le_rfl, fun j _ _ => by omega, .inr ⟨rfl, rfl⟩⟩
  | succ steps ih =>
      rcases powerRun_succ hQ hcols steps k with ⟨hmoves, heq⟩ | ⟨hstops, heq⟩
      · obtain ⟨l, hkl, hall, hends⟩ := ih (k + 1)
        have hall' : ∀ j, k ≤ j → j < l → Moves Q n j := by
          intro j hkj hjl
          rcases hkj.eq_or_lt with rfl | hlt
          · exact hmoves
          · exact hall j hlt hjl
        rw [heq]
        refine ⟨l, by omega, hall', ?_⟩
        rcases hends with ⟨hlt, hstops, hrun⟩ | ⟨hlimit, hrun⟩
        · exact .inl ⟨by omega, hstops, hrun⟩
        · exact .inr ⟨by omega, hrun⟩
      · exact ⟨k, le_rfl, fun j _ _ => by omega, .inl ⟨by omega, hstops, heq⟩⟩

/-- The vectors lie along the images of the start under the powers of the matrix. -/
theorem exists_get_powerVector (hroots : ExactRoots K) (hQ : Q.Upper) (hcols : Q.cols = n) (hn : n ≠ 0) {k : Nat}
    (h : ∀ j < k, Moves Q n j) :
    ∃ s : K, s ≠ 0 ∧ (powerVector Q n k).get = s • (shiftedCost Q n ^ k *ᵥ startDirection K n) := by
  induction k with
  | zero =>
      obtain ⟨s, hget, hs⟩ := exists_get_powerStart (K := K) hroots hn
      refine ⟨s, fun hzero => ?_, ?_⟩
      · rw [hzero, zero_mul, zero_mul] at hs
        exact zero_ne_one hs
      · rw [powerVector, hget, pow_zero, Matrix.one_mulVec]
  | succ k ih =>
      obtain ⟨s, hs, hget⟩ := ih fun j hj => h j (hj.trans k.lt_succ_self)
      refine ⟨(Vec.norm (image Q (powerVector Q n k)))⁻¹ * s,
        mul_ne_zero (inv_ne_zero (h k k.lt_succ_self).norm_ne) hs, ?_⟩
      rw [powerVector, get_unit, get_image hQ hcols, hget, Matrix.mulVec_smul, smul_smul, Matrix.mulVec_mulVec, ← pow_succ']

/-- The estimate is the quotient of the form and the squared length of those images. -/
theorem powerValue_mul (hroots : ExactRoots K) (hQ : Q.Upper) (hcols : Q.cols = n) (hn : n ≠ 0) {k : Nat}
    (h : ∀ j < k, Moves Q n j) {u : Fin n → K} (hu : u = shiftedCost Q n ^ k *ᵥ startDirection K n) :
    powerValue Q n (k + 1) * (u ⬝ᵥ u) = u ⬝ᵥ shiftedCost Q n *ᵥ u := by
  obtain ⟨s, hs, hget⟩ := exists_get_powerVector hroots hQ hcols hn h
  have hunit := unit_powerVector hroots hn h
  rw [hget, ← hu, smul_dotProduct, dotProduct_smul, smul_eq_mul, smul_eq_mul, ← mul_assoc] at hunit
  rw [powerValue, rayleigh, hget, ← hu, form_smul]
  linear_combination (u ⬝ᵥ shiftedCost Q n *ᵥ u) * hunit

/-! ## The estimate among the eigenvalues -/

section Embedded

variable (f : K →+*o ℝ)

theorem form_map (M : Matrix (Fin n) (Fin n) K) (x : Fin n → K) :
    f (x ⬝ᵥ M *ᵥ x) = (fun i => f (x i)) ⬝ᵥ M.map f *ᵥ fun i => f (x i) := by
  simp [dotProduct, Matrix.mulVec]

theorem reach_map (M : Matrix (Fin n) (Fin n) K) (i j : Fin n) : reach (M.map f) i j = f (reach M i j) := by
  unfold reach
  split
  · rfl
  · rcases le_total 0 (M i j) with h | h
    · have hf : 0 ≤ f (M i j) := map_zero f ▸ f.monotone' h
      rw [Matrix.map_apply, abs_of_nonneg h, abs_of_nonneg hf]
    · have hf : f (M i j) ≤ 0 := map_zero f ▸ f.monotone' h
      rw [Matrix.map_apply, abs_of_nonpos h, abs_of_nonpos hf, map_neg]

theorem form_le_gershgorinBound (Q : SparseMatrix K) (x : Fin n → ℝ) :
    x ⬝ᵥ (Q.symMatrix n).map f *ᵥ x ≤ f (gershgorinBound Q n) * (x ⬝ᵥ x) := by
  have hsym : ((Q.symMatrix n).map f)ᵀ = (Q.symMatrix n).map f := by
    rw [← Matrix.transpose_map, Q.transpose_symMatrix]
  apply form_le_of_reach hsym
  intro i
  simp only [reach_map, ← map_sum]
  exact f.monotone' (sum_reach_le Q i)

/-- A curvature along a unit vector lies among the eigenvalues, and these below the bound. -/
theorem exists_eigenvalues_around (hn : n ≠ 0) (Q : SparseMatrix K) {v : Vector K n} (hv : v.get ⬝ᵥ v.get = 1) :
    ∃ low high, IsLeast (spectrum ℝ ((Q.symMatrix n).map f)) low ∧
      IsGreatest (spectrum ℝ ((Q.symMatrix n).map f)) high ∧ low ≤ f (v.get ⬝ᵥ Q.symMatrix n *ᵥ v.get) ∧
        f (v.get ⬝ᵥ Q.symMatrix n *ᵥ v.get) ≤ high ∧ high ≤ f (gershgorinBound Q n) := by
  have hsym : ((Q.symMatrix n).map f)ᵀ = (Q.symMatrix n).map f := by
    rw [← Matrix.transpose_map, Q.transpose_symMatrix]
  have hunit : (fun i => f (v.get i)) ⬝ᵥ (fun i => f (v.get i)) = 1 := by
    rw [← map_one f, ← hv]
    simp [dotProduct]
  obtain ⟨low, high, hlow, hhigh, hforms⟩ := exists_extreme_eigenvalues hn hsym
  have hbound := (forall_spectrum_le_iff hsym).mpr (form_le_gershgorinBound f Q)
  rw [form_map]
  exact ⟨low, high, hlow, hhigh, (hforms _ hunit).1, (hforms _ hunit).2, hbound high hhigh.1⟩

end Embedded

/-- The vector that is scaled to the start has a norm to divide by. -/
theorem norm_start_ne_zero (hroots : ExactRoots K) (hn : n ≠ 0) :
    Vec.norm (Vector.ofFn fun i : Fin n => 1 + Scalar.ratio i n : Vector K n) ≠ 0 := by
  intro hzero
  have hsq := norm_mul_norm hroots (Vector.ofFn fun i : Fin n => 1 + Scalar.ratio i n : Vector K n)
  rw [hzero, get_ofFn_ratio, mul_zero] at hsq
  exact (dotProduct_startDirection_pos (K := K) hn).ne hsq

/-- Where the iteration ends and which of its vectors the estimate belongs to. -/
theorem exists_final (hQ : Q.Upper) (hcols : Q.cols = n) (hn : n ≠ 0) :
    ∃ k last, (powerRun Q (gershgorinBound Q n) powerLimit (powerStart n) 0).1 = powerVector Q n k ∧
      minEigenvalue Q n = gershgorinBound Q n - powerValue Q n (last + 1) ∧ (∀ j < k, Moves Q n j) ∧ last ≤ k ∧
        (k < powerLimit ∧ ¬Moves Q n k ∧ last = k ∨ k = powerLimit ∧ last + 1 = k) := by
  obtain ⟨k, -, hmoves, hends⟩ := powerRun_cases hQ hcols powerLimit 0
  simp only [zero_le, true_imp_iff, zero_add] at hmoves hends
  rw [minEigenvalue_eq Q hn, ← powerRun_snd]
  rcases hends with ⟨hlt, hstops, hrun⟩ | ⟨hlimit, hrun⟩
  · exact ⟨k, k, congrArg Prod.fst hrun, congrArg (_ - Prod.snd ·) hrun, hmoves, le_rfl, .inl ⟨hlt, hstops, rfl⟩⟩
  · subst hlimit
    exact ⟨powerLimit, 99, congrArg Prod.fst hrun, congrArg (_ - Prod.snd ·) hrun, hmoves, by decide, .inr ⟨rfl, rfl⟩⟩

/-- All vectors of the iteration are unit vectors and no norm is divided by that vanishes. The estimate is the curvature
along the last vector that was multiplied, which is the one that the iteration ends at unless it runs into its limit, and
the one before otherwise. It lies among the eigenvalues of the cost, and these below the bound. -/
theorem minEigenvalue_among_eigenvalues (hroots : ExactRoots K) (hQ : Q.Upper) (hcols : Q.cols = n) (hn : n ≠ 0)
    (f : K →+*o ℝ) :
    Vec.norm (Vector.ofFn fun i : Fin n => 1 + Scalar.ratio i n : Vector K n) ≠ 0 ∧
      minEigenvalue Q n =
        gershgorinBound Q n - (powerRun Q (gershgorinBound Q n) powerLimit (powerStart n) 0).2 ∧
      (∃ k last, (powerRun Q (gershgorinBound Q n) powerLimit (powerStart n) 0).1 = powerVector Q n k ∧
        (∀ j < k, Moves Q n j) ∧ (∀ j ≤ k, (powerVector Q n j).get ⬝ᵥ (powerVector Q n j).get = 1) ∧
        minEigenvalue Q n = (powerVector Q n last).get ⬝ᵥ Q.symMatrix n *ᵥ (powerVector Q n last).get ∧
        (k < powerLimit ∧ ¬Moves Q n k ∧ last = k ∨ k = powerLimit ∧ last + 1 = k)) ∧
      ∃ low high, IsLeast (spectrum ℝ ((Q.symMatrix n).map f)) low ∧
        IsGreatest (spectrum ℝ ((Q.symMatrix n).map f)) high ∧ low ≤ f (minEigenvalue Q n) ∧
          f (minEigenvalue Q n) ≤ high ∧ high ≤ f (gershgorinBound Q n) := by
  obtain ⟨k, last, hfinal, hvalue, hmoves, hle, hexit⟩ := exists_final hQ hcols hn
  have hunit : ∀ j ≤ k, (powerVector Q n j).get ⬝ᵥ (powerVector Q n j).get = 1 := fun j hj =>
    unit_powerVector hroots hn fun i hi => hmoves i (hi.trans_le hj)
  have hestimate : minEigenvalue Q n =
      (powerVector Q n last).get ⬝ᵥ Q.symMatrix n *ᵥ (powerVector Q n last).get := by
    rw [hvalue, powerValue_eq hroots hn fun i hi => hmoves i (hi.trans_le hle), sub_sub_cancel]
  have hrun : minEigenvalue Q n =
      gershgorinBound Q n - (powerRun Q (gershgorinBound Q n) powerLimit (powerStart n) 0).2 := by
    rw [powerRun_snd]
    exact minEigenvalue_eq Q hn
  refine ⟨norm_start_ne_zero hroots hn, hrun, ⟨k, last, hfinal, hmoves, hunit, hestimate, hexit⟩, ?_⟩
  rw [hestimate]
  exact exists_eigenvalues_around f hn Q (hunit last hle)

namespace Sample

/-- A diagonal cost with two eigenvalues close to each other and a third one that is zero. -/
noncomputable def slowCost : SparseMatrix ℝ :=
  { rows := 3, cols := 3, colPtr := #[0, 1, 2, 2], rowIdx := #[0, 1], values := #[-1, -(999 / 1000)] }

theorem upper_slowCost : slowCost.Upper := by
  have hpattern : ∀ j < 3, ∀ k ∈ slowCost.slots j, slowCost.rowAt k ≤ j := by decide
  exact hpattern

theorem cols_slowCost : slowCost.cols = 3 := rfl

theorem column_slowCost : slowCost.column 0 = [(0, -1)] ∧ slowCost.column 1 = [(1, -(999 / 1000))] ∧ slowCost.column 2 = [] :=
  ⟨rfl, rfl, rfl⟩

theorem symMatrix_slowCost : slowCost.symMatrix 3 = Matrix.diagonal ![-1, -(999 / 1000), 0] := by
  obtain ⟨h₀, h₁, h₂⟩ := column_slowCost
  ext i j
  fin_cases i <;> fin_cases j <;>
    simp [SparseMatrix.symMatrix, SparseMatrix.entry, SparseMatrix.sumAt, h₀, h₁, h₂]

theorem gershgorinBound_slowCost : gershgorinBound slowCost 3 = 0 := by
  obtain ⟨h₀, h₁, h₂⟩ := column_slowCost
  have hmaximum : ∀ v : Vector ℝ 3, v.get = ![-1, -(999 / 1000), 0] → Vec.maximum v = 0 := by
    intro v hv
    have hinfinity : (Scalar.infinity : ℝ) = 0 := rfl
    rw [Vec.maximum, Vec.toList_eq_ofFn, hv, hinfinity]
    norm_num [List.ofFn_succ]
  apply hmaximum
  ext i
  apply (get_gershgorinFold slowCost i).trans
  rw [Fin.sum_univ_three]
  fin_cases i <;> simp [h₀, h₁, h₂, rowShare]

theorem shiftedCost_slowCost : shiftedCost slowCost 3 = Matrix.diagonal ![1, 999 / 1000, 0] := by
  rw [shiftedCost, gershgorinBound_slowCost, symMatrix_slowCost, zero_smul, zero_sub, Matrix.diagonal_neg]
  congr 1
  ext i
  fin_cases i <;> simp

theorem image_slowCost (k : Nat) : shiftedCost slowCost 3 ^ k *ᵥ startDirection ℝ 3 = ![1, 4 / 3 * (999 / 1000) ^ k, 5 / 3 * 0 ^ k] := by
  rw [shiftedCost_slowCost, Matrix.diagonal_pow]
  ext i
  rw [Matrix.mulVec_diagonal]
  fin_cases i
  · simp [startDirection]
  · norm_num [startDirection]
    ring
  · norm_num [startDirection]
    ring

theorem powerTolerance_real : (powerTolerance : ℝ) = 1 / 10 ^ 8 := by
  norm_num [powerTolerance, Scalar.ofScientific_eq]

/-- The estimates along the slow cost. -/
theorem powerValue_slowCost {k : Nat} (h : ∀ j < k, Moves slowCost 3 j) :
    powerValue slowCost 3 (k + 1) * (1 + 16 / 9 * (999 / 1000) ^ (2 * k) + 25 / 9 * 0 ^ k) =
      1 + 16 / 9 * ((999 / 1000) ^ (2 * k) * (999 / 1000)) := by
  have hvalue := powerValue_mul exactRoots_real upper_slowCost cols_slowCost (by decide) h (image_slowCost k).symm
  have hzero : (0 : ℝ) ^ k * 0 ^ k = 0 ^ k := by
    cases k with
    | zero => simp
    | succ k => simp
  rw [shiftedCost_slowCost] at hvalue
  simp only [dotProduct, Matrix.mulVec_diagonal, Fin.sum_univ_three, Matrix.cons_val_zero, Matrix.cons_val_one,
    Matrix.cons_val_two, Matrix.tail_cons, Matrix.head_cons] at hvalue
  linear_combination hvalue - powerValue slowCost 3 (k + 1) * (25 / 9) * hzero

/-- Later estimates still differ by more than the iteration takes for settled. -/
theorem lt_powerValue_sub {k : Nat} (hk : k ≤ 98) (h : ∀ j < k + 2, Moves slowCost 3 j) :
    1 / 10 ^ 7 < powerValue slowCost 3 (k + 3) - powerValue slowCost 3 (k + 2) ∧
      0 ≤ powerValue slowCost 3 (k + 3) ∧ powerValue slowCost 3 (k + 3) ≤ 1 := by
  have hnext := powerValue_slowCost h
  have hlast := powerValue_slowCost (k := k + 1) fun j hj => h j (by omega)
  generalize powerValue slowCost 3 (k + 3) = e' at *
  generalize powerValue slowCost 3 (k + 2) = e at *
  have hlow : (4 / 5 : ℝ) ≤ (999 / 1000) ^ (2 * (k + 1)) := by
    have hbernoulli := one_add_mul_le_pow (a := (-(1 / 1000) : ℝ)) (by norm_num) (2 * (k + 1))
    have hk' : ((2 * (k + 1) : ℕ) : ℝ) ≤ 198 := by exact_mod_cast (by omega : 2 * (k + 1) ≤ 198)
    norm_num at hbernoulli ⊢
    norm_num at hk'
    linarith
  have hhigh : ((999 / 1000) ^ (2 * (k + 1)) : ℝ) ≤ 1 := pow_le_one₀ (by norm_num) (by norm_num)
  have hpow : ((999 / 1000) ^ (2 * (k + 2)) : ℝ) = (999 / 1000) ^ (2 * (k + 1)) * (999 / 1000) ^ 2 := by
    rw [← pow_add]
    ring_nf
  rw [hpow, zero_pow (Nat.succ_ne_zero _)] at hnext
  rw [zero_pow (Nat.succ_ne_zero _)] at hlast
  generalize ((999 / 1000) ^ (2 * (k + 1)) : ℝ) = b at *
  have he : e = (1 + 16 / 9 * (b * (999 / 1000))) / (1 + 16 / 9 * b) :=
    eq_div_of_mul_eq (by positivity) (by linarith)
  have he' : e' = (1 + 16 / 9 * (b * (999 / 1000) ^ 2 * (999 / 1000))) / (1 + 16 / 9 * (b * (999 / 1000) ^ 2)) :=
    eq_div_of_mul_eq (by positivity) (by linarith)
  refine ⟨?_, ?_, ?_⟩
  · rw [he, he', div_sub_div _ _ (by positivity) (by positivity), lt_div_iff₀ (by positivity)]
    nlinarith
  · rw [he']
    positivity
  · rw [he', div_le_one₀ (by positivity)]
    nlinarith

/-- The iteration never settles on the slow cost within its limit. -/
theorem moves_slowCost {k : Nat} (hk : k ≤ 100) : Moves slowCost 3 k := by
  induction k using Nat.strong_induction_on with
  | h k ih =>
      have hbefore : ∀ j < k, Moves slowCost 3 j := fun j hj => ih j hj (by omega)
      refine ⟨fun hzero => ?_, ?_⟩
      · obtain ⟨s, hs, hget⟩ := exists_get_powerVector exactRoots_real upper_slowCost cols_slowCost (by decide) hbefore
        have hsq := norm_mul_norm exactRoots_real (image slowCost (powerVector slowCost 3 k))
        rw [hzero, mul_zero, eq_comm, dotProduct_self_eq_zero, get_image upper_slowCost cols_slowCost, hget,
          image_slowCost, shiftedCost_slowCost] at hsq
        have hfirst := congrFun hsq 0
        simp [Matrix.mulVec_diagonal] at hfirst
        exact hs hfirst
      · rw [powerTolerance_real]
        match k, hk, hbefore with
        | 0, _, hbefore =>
            have hvalue := powerValue_slowCost hbefore
            have hpos : 0 < powerValue slowCost 3 1 := by
              norm_num at hvalue
              linarith
            rw [powerValue, sub_zero, abs_of_pos hpos]
            linarith
        | 1, _, hbefore =>
            have hvalue := powerValue_slowCost hbefore
            have hfirst := powerValue_slowCost (k := 0) fun j hj => absurd hj j.not_lt_zero
            norm_num at hvalue hfirst
            have hle : powerValue slowCost 3 1 ≤ 1 / 2 := by linarith
            have hlow : 9 / 10 ≤ powerValue slowCost 3 2 := by linarith
            have hhigh : powerValue slowCost 3 2 ≤ 1 := by linarith
            rw [abs_of_nonneg (by linarith), abs_of_nonneg (by linarith)]
            linarith
        | k + 2, hk, hbefore =>
            obtain ⟨hgap, hnonneg, hle⟩ := lt_powerValue_sub (by omega) hbefore
            rw [abs_of_nonneg hnonneg, abs_of_pos (by linarith)]
            linarith

end Sample

/-- The estimate for the slow cost lies among its eigenvalues. -/
theorem minEigenvalue_among_eigenvalues_slowCost :
    ∃ low high, IsLeast (spectrum ℝ ((Sample.slowCost.symMatrix 3).map (OrderRingHom.id ℝ))) low ∧
      IsGreatest (spectrum ℝ ((Sample.slowCost.symMatrix 3).map (OrderRingHom.id ℝ))) high ∧
        low ≤ minEigenvalue Sample.slowCost 3 ∧ minEigenvalue Sample.slowCost 3 ≤ high ∧ high ≤ 0 := by
  obtain ⟨-, -, -, low, high, hlow, hhigh, hle, hge, hbound⟩ := minEigenvalue_among_eigenvalues Sample.exactRoots_real
    Sample.upper_slowCost Sample.cols_slowCost (by decide) (OrderRingHom.id ℝ)
  rw [Sample.gershgorinBound_slowCost, map_zero] at hbound
  exact ⟨low, high, hlow, hhigh, hle, hge, hbound⟩

/-- On the slow cost the iteration runs into its limit. The estimate is not the curvature along the vector at which the
iteration ends. -/
theorem minEigenvalue_ne_final :
    minEigenvalue Sample.slowCost 3 ≠
      (powerRun Sample.slowCost (gershgorinBound Sample.slowCost 3) powerLimit (powerStart 3) 0).1.get ⬝ᵥ
        Sample.slowCost.symMatrix 3 *ᵥ
          (powerRun Sample.slowCost (gershgorinBound Sample.slowCost 3) powerLimit (powerStart 3) 0).1.get := by
  obtain ⟨k, last, hfinal, hvalue, hmoves, -, hexit⟩ :=
    exists_final Sample.upper_slowCost Sample.cols_slowCost (by decide)
  have hlimit : k = 100 ∧ last = 99 := by
    rcases hexit with ⟨hlt, hstops, -⟩ | ⟨rfl, hlast⟩
    · exact absurd (Sample.moves_slowCost hlt.le) hstops
    · exact ⟨rfl, Nat.succ.inj hlast⟩
  obtain ⟨rfl, rfl⟩ := hlimit
  obtain ⟨hgap, -, -⟩ := Sample.lt_powerValue_sub le_rfl hmoves
  have hfinal_value := powerValue_eq Sample.exactRoots_real (by decide) hmoves
  rw [hfinal, hvalue]
  intro heq
  linarith

end AugLag
