import AugLag.Proofs.Factor.Analysis
import AugLag.Proofs.Factor.Inertia

/-!
# Factors in a given order

In whatever order the rows and columns of a symmetric matrix are listed, it has factors exactly if no leading
principal minor of the listed matrix is zero. The factors multiply to the listed matrix, they solve its systems, and
their positive pivots count the positive eigenvalues.
-/

namespace AugLag.Factorization

open SparseMatrix
open scoped Matrix

variable {K : Type} [ExactScalar K] {A : SparseMatrix K} {F : Factorization K} {N : Nat}

/-- The order of elimination in which row and column `σ i` come at place `i`. -/
def listing (σ : Equiv.Perm (Fin N)) : Array Nat := Array.ofFn fun i => (σ i : Nat)

theorem isHermitian_symMatrix (A : SparseMatrix K) (N : Nat) (φ : K →+*o ℝ) :
    ((A.symMatrix N).map φ).IsHermitian := by
  ext i j
  exact congrArg φ (sym_comm A j i)

/-- The factors are those of a symmetric matrix whose rows and columns are listed by a permutation. -/
structure Decomposes (A : SparseMatrix K) (σ : Equiv.Perm (Fin N)) (F : Factorization K) : Prop where
  dim_eq : F.dim = N
  /-- The factor `L` is stored without its unit diagonal. -/
  below : ∀ c < N, ∀ p ∈ F.lower.slots c, c < F.lower.rowAt p ∧ F.lower.rowAt p < N
  product : (1 + F.lower.toMatrix N N) * Matrix.diagonal (values N F.diag) * (1 + F.lower.toMatrix N N)ᵀ =
    (A.symMatrix N).submatrix σ σ
  diag_ne_zero : ∀ i, values N F.diag i ≠ 0
  diagInv_eq : ∀ i, values N F.diagInv i = (values N F.diag i)⁻¹
  solves : ∀ b : Array K, b.size = N → ∃ x, F.solve? b = some x ∧ x.size = N ∧
    ∀ z, A.symMatrix N *ᵥ z = values N b ↔ z = values N x
  /-- The scalars may lie in the real numbers in any way that respects their order. -/
  inertia : ∀ φ : K →+*o ℝ, F.positive = Nat.card { i // 0 < (isHermitian_symMatrix A N φ).eigenvalues i }
  definite : F.positive = F.dim ↔ PosDef (A.symMatrix N)

/-! ## What the factors are -/

theorem Factors.one_add_lower {a : Nat → Nat → K} (h : F.Factors a) :
    1 + F.lower.toMatrix F.dim F.dim = leading F.dim F.lower.unit := by
  ext i c
  rw [Matrix.add_apply]
  show (1 : Matrix (Fin F.dim) (Fin F.dim) K) i c + F.lower.entry i c = F.lower.unit i c
  by_cases hic : i = c
  · rw [hic, Matrix.one_apply_eq, h.full.entry_of_le le_rfl, add_zero]
    exact (if_pos rfl).symm
  · rw [Matrix.one_apply_ne hic, zero_add, unit_of_ne _ fun heq => hic (Fin.ext heq)]

/-- No other vector is mapped to the right hand side. -/
theorem Represents.mulVec_eq_iff (h : F.Represents A.sym) (hA : Analysis A F) (b : Array K) (z : Fin F.dim → K) :
    A.symMatrix F.dim *ᵥ z = values F.dim b ↔ z = values F.dim (F.solve b) := by
  have hsolve : A.symMatrix F.dim *ᵥ values F.dim (F.solve b) = values F.dim b := h.mulVec_solve hA b
  refine ⟨fun hz => ?_, fun hz => by rw [hz]; exact hsolve⟩
  have hdet : (A.symMatrix F.dim).det ≠ 0 := by
    have hlisted := h.elim.det_leading_ne_zero (Full.unitLower h.full) h.ne_zero
    rw [hA.leading_reordered, Matrix.det_submatrix_equiv_self] at hlisted
    exact hlisted
  refine sub_eq_zero.mp (Matrix.eq_zero_of_mulVec_eq_zero hdet ?_)
  rw [Matrix.mulVec_sub, hz, hsolve, sub_self]

theorem pos_map_iff (φ : K →+*o ℝ) (x : K) : 0 < φ x ↔ 0 < x := by
  have hmono : StrictMono φ := φ.monotone'.strictMono_of_injective φ.toRingHom.injective
  rw [← map_zero φ]
  exact hmono.lt_iff_lt

theorem Represents.positive_eq_card (h : F.Represents A.sym) (hA : Analysis A F) (φ : K →+*o ℝ) :
    F.positive = Nat.card { i // 0 < (isHermitian_symMatrix A F.dim φ).eigenvalues i } := by
  have hunit := Full.unitLower h.full
  have hleading : leading F.dim (fun i j => φ (A.sym (F.perm.getD i 0) (F.perm.getD j 0))) =
      ((A.symMatrix F.dim).map φ).submatrix hA.permutes.equiv hA.permutes.equiv := rfl
  have hpivots := (h.elim.map φ.toRingHom).sigPos_eq (hunit.map φ.toRingHom) hleading
  rw [← sigPos_eq_card_eigenvalues, hpivots, h.positive_eq, countP_range_eq_card]
  exact Nat.card_congr (Equiv.subtypeEquivRight fun t => (pos_map_iff φ _).symm)

theorem Represents.decomposes (h : F.Represents A.sym) (hA : Analysis A F) : Decomposes A hA.permutes.equiv F where
  dim_eq := rfl
  below c hc p hp := by
    have hcols : F.stored.matrix.cols = F.dim := hA.shape.size_diag.symm
    obtain ⟨hrow, hreach⟩ := h.full.row_reaches (hcols ▸ hc) hp
    exact ⟨hreach.lt, hcols ▸ hrow⟩
  product := by
    rw [h.one_add_lower]
    exact h.elim.leading_eq.symm
  diag_ne_zero i := h.ne_zero i i.isLt
  diagInv_eq i := h.diagInv_eq i i.isLt
  solves b hb := by
    refine ⟨F.solve b, if_pos hb, ?_, h.mulVec_eq_iff hA b⟩
    rw [solve, Array.size_map]
    exact hA.permutes.size_inverse
  inertia := h.positive_eq_card hA
  definite := h.positive_iff.trans (h.posDef_iff hA).symm

theorem equiv_of_listing {perm inverse : Array Nat} (h : Permutes perm inverse N) {σ : Equiv.Perm (Fin N)}
    (hσ : perm = listing σ) : h.equiv = σ := by
  ext i
  show perm.getD i 0 = σ i
  simp [hσ, listing]

/-- Factors have no leading minor that is zero. -/
theorem Represents.decomposes_listing (h : F.Represents A.sym) (hA : Analysis A F) (hN : F.dim = N)
    {σ : Equiv.Perm (Fin N)} (hσ : F.perm = listing σ) :
    Decomposes A σ F ∧ ∀ k, leadingMinor ((A.symMatrix N).submatrix σ σ) k ≠ 0 := by
  subst hN
  have hequiv := equiv_of_listing hA.permutes hσ
  subst hequiv
  exact ⟨h.decomposes hA, h.elim.leadingMinor_ne_zero (Full.unitLower h.full) h.ne_zero⟩

/-! ## When there are factors -/

theorem Analysis.refactor_listing (h : Analysis A F) (hv : F.stored.Holds A) (hN : F.dim = N)
    {σ : Equiv.Perm (Fin N)} (hσ : F.perm = listing σ) :
    (F.refactor.2 = .ok () ∧ Decomposes A σ F.refactor.1 ∧
        ∀ k, leadingMinor ((A.symMatrix N).submatrix σ σ) k ≠ 0) ∨
      (F.refactor.2 = .error .zeroPivot ∧ ∃ k, leadingMinor ((A.symMatrix N).submatrix σ σ) k = 0) := by
  obtain ⟨hanalysis, hsame, hcases⟩ := h.refactor hv
  cases hcases with
  | inl hok =>
      have hdecomposes := hok.2.decomposes_listing hanalysis (hsame.dim.trans hN) (hsame.perm.trans hσ)
      exact .inl ⟨hok.1, hdecomposes⟩
  | inr herror =>
      obtain ⟨herror, k, v, hpivot⟩ := herror
      refine .inr ⟨herror, ?_⟩
      subst hN
      have hequiv := equiv_of_listing h.permutes hσ
      subst hequiv
      exact ⟨k, hpivot.leadingMinor_eq_zero⟩

/-- The permutation and its inverse as arrays. -/
theorem exists_permutes_listing (σ : Equiv.Perm (Fin N)) :
    ∃ inverse, invertPermutation? (listing σ) = some inverse ∧ Permutes (listing σ) inverse N := by
  have hsize : (listing σ).size = N := Array.size_ofFn
  have hperm : (listing σ).toList.Perm (List.range (listing σ).size) := by
    rw [hsize, listing, Array.toList_ofFn, ← List.map_coe_finRange_eq_range, List.ofFn_eq_map, ← Function.comp_def,
      ← List.map_map]
    exact (Equiv.Perm.map_finRange_perm σ).map _
  obtain ⟨inverse, hinverse, hpermutes⟩ := exists_invertPermutation hperm
  rw [hsize] at hpermutes
  exact ⟨inverse, hinverse, hpermutes⟩

/-- The checks pass, so that only the pivots decide. -/
theorem ofMatrix?_eq [Elimination.Rule] (hA : WellFormed A) (hsquare : A.rows = A.cols) (hupper : A.Upper)
    (hcolumns : ∀ j < A.cols, A.first j ≠ A.stop j) {perm inverse : Array Nat} (hperm : Permutes perm inverse A.cols)
    (hinverse : invertPermutation? perm = some inverse) (denseScale : Float) :
    ofMatrix? A (some perm) denseScale = some (ofPermutation A perm inverse) := by
  have hsq : A.isSquare = true := beq_iff_eq.mpr hsquare
  have hcheck := checkStructure_eq_ok hA hsquare hcolumns
  have hchoose : chooseOrder A (some perm) denseScale = .ok perm := if_pos hperm.size_perm
  have hmatrix : ofMatrix A (some perm) denseScale = ofPermutation A perm inverse := by
    rw [ofMatrix, isUpper_eq_true hupper, hcheck, hchoose]
    simp only [bind, Except.bind, hinverse]
  have hreadable : (A.cols < A.colPtr.size && A.first 0 = 0 && A.nnz ≤ A.values.size) = true := by
    simp [hA.size_colPtr, hA.first_zero, hA.nnz_eq]
  rw [ofMatrix?, hsq, isUpper?_eq_some hA.toLayout hupper, hcheck, hchoose, hmatrix]
  simp [Except.map, hinverse, hreadable]

/-- A matrix has factors in the given order if and only if no leading minor of the listed matrix is zero. -/
theorem ofMatrix?_decomposes [Elimination.Rule] (hA : WellFormed A) (hsquare : A.rows = A.cols) (hupper : A.Upper)
    (hcolumns : ∀ j < A.cols, A.first j ≠ A.stop j) (σ : Equiv.Perm (Fin A.cols)) (denseScale : Float) :
    ((∀ k, leadingMinor ((A.symMatrix A.cols).submatrix σ σ) k ≠ 0) →
        ∃ F, ofMatrix? A (some (listing σ)) denseScale = some (.ok F) ∧ Decomposes A σ F) ∧
      (¬(∀ k, leadingMinor ((A.symMatrix A.cols).submatrix σ σ) k ≠ 0) →
        ofMatrix? A (some (listing σ)) denseScale = some (.error .zeroPivot)) := by
  obtain ⟨inverse, hinverse, hpermutes⟩ := exists_permutes_listing σ
  rw [ofMatrix?_eq hA hsquare hupper hcolumns hpermutes hinverse]
  obtain ⟨hanalysis, hholds⟩ := analysis_analyze hA hupper hpermutes
  have hlisted : (analyze A (listing σ) inverse).perm = listing σ := rfl
  have hcases := hanalysis.refactor_listing hholds hanalysis.dim_eq hlisted
  rw [ofPermutation]
  generalize (analyze A (listing σ) inverse).refactor = result at hcases
  obtain ⟨F, outcome⟩ := result
  rcases hcases with ⟨rfl, hdecomposes, hminors⟩ | ⟨rfl, k, hminor⟩
  · exact ⟨fun _ => ⟨F, rfl, hdecomposes⟩, fun hnot => absurd hminors hnot⟩
  · exact ⟨fun hall => absurd hminor (hall k), fun _ => rfl⟩

namespace Sample

/-- The rows `0 1` and `1 1`, with the zero on the diagonal stored. -/
def hyperbolic : SparseMatrix ℚ where
  rows := 2
  cols := 2
  colPtr := #[0, 1, 3]
  rowIdx := #[0, 0, 1]
  values := #[0, 1, 1]

def natural : Equiv.Perm (Fin hyperbolic.cols) := Equiv.refl (Fin 2)

def swapped : Equiv.Perm (Fin hyperbolic.cols) := Equiv.swap (0 : Fin 2) (1 : Fin 2)

end Sample

open Sample in
/-- The matrix has factors in one order, with a positive and a negative pivot, and none in the other. -/
theorem ofMatrix?_decomposes_hyperbolic :
    (∃ F, ofMatrix? hyperbolic (some (listing swapped)) 10 = some (.ok F) ∧ Decomposes hyperbolic swapped F) ∧
      ofMatrix? hyperbolic (some (listing natural)) 10 = some (.error .zeroPivot) := by
  have hformed : WellFormed hyperbolic := wellFormed_of_check (by decide +kernel)
  have hupper : hyperbolic.Upper := show ∀ j < 2, ∀ k ∈ hyperbolic.slots j, hyperbolic.rowAt k ≤ j by decide +kernel
  have hcolumns : ∀ j < hyperbolic.cols, hyperbolic.first j ≠ hyperbolic.stop j := by decide +kernel
  have hswapped : ∀ k, leadingMinor ((hyperbolic.symMatrix hyperbolic.cols).submatrix swapped swapped) k ≠ 0 := by
    decide +kernel
  have hnatural : ¬∀ k, leadingMinor ((hyperbolic.symMatrix hyperbolic.cols).submatrix natural natural) k ≠ 0 := by
    decide +kernel
  exact ⟨(ofMatrix?_decomposes hformed rfl hupper hcolumns swapped 10).1 hswapped,
    (ofMatrix?_decomposes hformed rfl hupper hcolumns natural 10).2 hnatural⟩

end AugLag.Factorization
