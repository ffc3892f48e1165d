import AugLag.Proofs.Checked.Sparse
import AugLag.Proofs.Sparse.Dense
import AugLag.Proofs.Sparse.Product
import AugLag.Proofs.Sparse.Transpose

/-!
# One matrix behind all products

The products with a matrix, with its adjoint view and with the symmetric matrix behind an upper triangle go through the
same arrays in three ways. In exact arithmetic all of them are products with one dense matrix, whose entries are those
that the sparse matrix stores. The adjoint view is then the transpose that could be formed, and the upper triangle the
full symmetric matrix (`products_agree`).
-/

namespace AugLag.SparseMatrix

open scoped Matrix

variable {K : Type} [ExactScalar K] {A Q F : SparseMatrix K} {m n i j : Nat}

/-! ## Entries -/

theorem toMatrix_apply (A : SparseMatrix K) (i : Fin m) (j : Fin n) : A.toMatrix m n i j = A.entry i j := rfl

theorem WellFormed.toMatrix_eq (h : WellFormed A) (i : Fin A.rows) (j : Fin A.cols) :
    ∃ v, A.get? i j = some v ∧ A.toMatrix A.rows A.cols i j = v.getD 0 := by
  refine ⟨_, h.get?_eq i.isLt j.isLt, ?_⟩
  rw [toMatrix_apply, h.entry_eq j.isLt, h.get_eq j.isLt]

theorem WellFormed.entry_transpose (h : WellFormed A) (hi : i < A.rows) (hj : j < A.cols) :
    A.transpose.entry j i = A.entry i j := by
  have hB := wellFormed_transpose h.distinct h.rowAt_lt
  have hi' : i < A.transpose.cols := hi
  rw [hB.entry_eq hi', h.entry_eq hj, hB.get_eq hi', h.get_eq hj]
  refine congrArg (Option.getD · 0) (Option.ext fun v => ?_)
  rw [lookup_eq_some_iff_mem (hB.distinct.nodup_column hi'), lookup_eq_some_iff_mem (h.distinct.nodup_column hj),
    mem_column_transpose h.toLayout h.rowAt_lt]

theorem WellFormed.toMatrix_transpose (h : WellFormed A) :
    A.transpose.toMatrix A.cols A.rows = (A.toMatrix A.rows A.cols)ᵀ :=
  Matrix.ext fun j i => by
    rw [Matrix.transpose_apply, toMatrix_apply, toMatrix_apply, h.entry_transpose i.isLt j.isLt]

theorem toMatrix_ofDense (D : Matrix (Fin m) (Fin n) K) : (ofDense m n (columnMajor D)).toMatrix m n = D := by
  have hF := wellFormed_ofDense (size_columnMajor D)
  ext i j
  have hj := j.isLt.trans_eq (cols_ofDense m n (columnMajor D)).symm
  rw [toMatrix_apply, hF.entry_eq hj, hF.get_eq hj, lookup_ofDense]
  by_cases hzero : Vanishes (D i j)
  · rw [if_pos hzero]
    exact (beq_iff_eq.mp hzero).symm
  · rw [if_neg hzero]
    rfl

/-! ## Products as linear maps -/

theorem mulAdd_eq (A : SparseMatrix K) (y : Vector K m) (x : Vector K n) (a b : K) :
    (A.mulAdd y x a b).get = b • y.get + a • A.toMatrix m n *ᵥ x.get :=
  funext fun i => get_mulAdd A y x a b i

theorem WellFormed.adjointMulAdd_eq (h : WellFormed A) (y : Vector K A.cols) (x : Vector K A.rows) (a b : K) :
    A.adjointMulAdd y x a b = A.transpose.mulAdd y x a b := by
  refine Vec.ext_get fun j => ?_
  rw [get_adjointMulAdd, get_mulAdd, h.toMatrix_transpose]

/-- The adjoint view is adjoint to the matrix, whatever the vectors held that are overwritten. -/
theorem dot_adjoint (A : SparseMatrix K) (y w : Vector K m) (y' x : Vector K n) :
    Vec.dot w (A.mulAdd y x 1 0) = Vec.dot (A.adjointMulAdd y' w 1 0) x := by
  have hadjoint : (A.adjointMulAdd y' w 1 0).get = (A.toMatrix m n)ᵀ *ᵥ w.get :=
    funext fun j => by simp [get_adjointMulAdd]
  have hmul : (A.mulAdd y x 1 0).get = A.toMatrix m n *ᵥ x.get := by simp [mulAdd_eq]
  rw [Vec.dot_eq_dotProduct, Vec.dot_eq_dotProduct, hadjoint, hmul, Matrix.dotProduct_mulVec, Matrix.mulVec_transpose]

/-! ## The symmetric matrix of an upper triangle -/

/-- The matrix `F` stores both triangles of the symmetric matrix `Q + Qᵀ - diag(Q)`. -/
structure Unfolds (Q F : SparseMatrix K) : Prop where
  formed : WellFormed F
  size_eq : F.size = Q.size
  toMatrix_eq : F.toMatrix Q.cols Q.cols =
    Q.toMatrix Q.cols Q.cols + (Q.toMatrix Q.cols Q.cols)ᵀ - .diagonal (Q.toMatrix Q.cols Q.cols).diag

theorem exists_unfolds (hsquare : Q.rows = Q.cols) : ∃ F, Unfolds Q F :=
  ⟨_, wellFormed_ofDense (size_columnMajor _), Prod.ext hsquare.symm (cols_ofDense _ _ _), toMatrix_ofDense _⟩

theorem Upper.symMatrix_eq (h : Upper Q) :
    Q.symMatrix Q.cols = Q.toMatrix Q.cols Q.cols + (Q.toMatrix Q.cols Q.cols)ᵀ
      - .diagonal (Q.toMatrix Q.cols Q.cols).diag := by
  ext i j
  simp only [symMatrix, Matrix.of_apply, Matrix.sub_apply, Matrix.add_apply, Matrix.transpose_apply,
    Matrix.diagonal_apply, Matrix.diag_apply, toMatrix_apply]
  rcases lt_trichotomy i j with hlt | rfl | hgt
  · rw [if_pos hlt.le, if_neg hlt.ne, h.entry_eq_zero i.isLt hlt, add_zero, sub_zero]
  · rw [if_pos le_rfl, if_pos rfl, add_sub_cancel_right]
  · rw [if_neg (not_le.mpr hgt), if_neg hgt.ne', h.entry_eq_zero j.isLt hgt, zero_add, sub_zero]

theorem Unfolds.symMulAdd_eq (h : Unfolds Q F) (hupper : Upper Q) (y x : Vector K Q.cols) (a b : K) :
    Q.symMulAdd y x a b = F.mulAdd y x a b := by
  refine Vec.ext_get fun i => ?_
  rw [get_symMulAdd hupper rfl, get_mulAdd, hupper.symMatrix_eq, h.toMatrix_eq]

/-- In exact arithmetic the three products are answered for all vectors of matching lengths and are products with dense
matrices. Where nothing is stored these are zero. The product with the adjoint view is the one with the transpose that is
formed, and makes the view adjoint to the matrix; the symmetric product is the one with any matrix that stores both
triangles. -/
theorem products_agree (hA : WellFormed A) (hQ : WellFormed Q) (hsquare : Q.rows = Q.cols) (hupper : Upper Q)
    (a b : K) :
    (∀ (i : Fin A.rows) (j : Fin A.cols), ∃ v, A.get? i j = some v ∧ A.toMatrix A.rows A.cols i j = v.getD 0) ∧
    (∀ (y : Vector K A.rows) (x : Vector K A.cols), ∃ z : Vector K A.rows,
      A.mulAdd? y.toArray x.toArray a b = some z.toArray ∧
        z.get = b • y.get + a • A.toMatrix A.rows A.cols *ᵥ x.get) ∧
    (∃ B, A.transpose? = some B ∧ WellFormed B ∧ B.size = (A.cols, A.rows) ∧
      B.toMatrix A.cols A.rows = (A.toMatrix A.rows A.cols)ᵀ ∧
      ∀ (y : Vector K A.cols) (x : Vector K A.rows), ∃ z : Vector K A.cols,
        A.adjointMulAdd? y.toArray x.toArray a b = some z.toArray ∧
          B.mulAdd? y.toArray x.toArray a b = some z.toArray) ∧
    (∀ (y w : Vector K A.rows) (y' x : Vector K A.cols), ∃ (u : Vector K A.rows) (v : Vector K A.cols),
      A.mulAdd? y.toArray x.toArray 1 0 = some u.toArray ∧
        A.adjointMulAdd? y'.toArray w.toArray 1 0 = some v.toArray ∧ Vec.dot w u = Vec.dot v x) ∧
    (∃ F, Unfolds Q F) ∧ ∀ F, Unfolds Q F → ∀ y x : Vector K Q.cols, ∃ z : Vector K Q.cols,
      Q.symMulAdd? y.toArray x.toArray a b = some z.toArray ∧ F.mulAdd? y.toArray x.toArray a b = some z.toArray := by
  have hB := wellFormed_transpose hA.distinct hA.rowAt_lt
  refine ⟨hA.toMatrix_eq, fun y x => ⟨_, Checked.mulAdd?_eq hA rfl rfl y x a b, mulAdd_eq A y x a b⟩,
    ⟨A.transpose, transpose?_eq hA.toLayout hA.rowAt_lt, hB, rfl, hA.toMatrix_transpose, fun y x => ?_⟩,
    fun y w y' x => ⟨_, _, Checked.mulAdd?_eq hA rfl rfl y x 1 0, Checked.adjointMulAdd?_eq hA rfl rfl y' w 1 0,
      dot_adjoint A y w y' x⟩,
    exists_unfolds hsquare, fun F hF y x => ?_⟩
  · refine ⟨_, Checked.adjointMulAdd?_eq hA rfl rfl y x a b, ?_⟩
    rw [hA.adjointMulAdd_eq]
    exact Checked.mulAdd?_eq hB rfl rfl y x a b
  · obtain ⟨hrows, hcols⟩ := Prod.mk.inj hF.size_eq
    refine ⟨_, Checked.symMulAdd?_eq hQ hsquare rfl y x a b, ?_⟩
    rw [hF.symMulAdd_eq hupper]
    exact Checked.mulAdd?_eq hF.formed (hrows.trans hsquare) hcols y x a b

/-- Three rows, of which the last is empty, and two columns. -/
def oblong : SparseMatrix ℚ :=
  { rows := 3, cols := 2, colPtr := #[0, 2, 3], rowIdx := #[0, 1, 0], values := #[1, -2, 3] }

/-- The upper triangle of a symmetric matrix, with nothing at one place of its diagonal. -/
def triangle : SparseMatrix ℚ :=
  { rows := 2, cols := 2, colPtr := #[0, 0, 2], rowIdx := #[0, 1], values := #[2, 5] }

theorem products_agree_oblong :
    (WellFormed oblong ∧ WellFormed triangle ∧ triangle.rows = triangle.cols ∧ Upper triangle) ∧
      oblong.mulAdd? #[1, 1, 1] #[2, 1] 2 3 = some #[13, -5, 3] ∧
      (∃ B, oblong.transpose? = some B ∧ oblong.adjointMulAdd? #[0, 1] #[1, 1, 1] 2 3 = some #[-2, 9] ∧
        B.mulAdd? #[0, 1] #[1, 1, 1] 2 3 = some #[-2, 9]) ∧
      ∃ F, Unfolds triangle F ∧ triangle.symMulAdd? #[1, 0] #[1, 2] 2 3 = some #[11, 24] ∧
        F.mulAdd? #[1, 0] #[1, 2] 2 3 = some #[11, 24] := by
  have hA : WellFormed oblong := wellFormed_of_check (by decide +kernel)
  have hQ : WellFormed triangle := wellFormed_of_check (by decide +kernel)
  have hupper : Upper triangle := by
    unfold Upper
    decide
  obtain ⟨-, -, ⟨B, hB, -, -, -, hadjoint⟩, -, ⟨F, hF⟩, hsym⟩ := products_agree hA hQ rfl hupper 2 3
  obtain ⟨z, hview, hformed⟩ := hadjoint #v[0, 1] #v[1, 1, 1]
  obtain ⟨w, htri, hfull⟩ := hsym F hF #v[1, 0] #v[1, 2]
  refine ⟨⟨hA, hQ, rfl, hupper⟩, by decide +kernel, ⟨B, hB, ?_, ?_⟩, F, hF, ?_, ?_⟩
  · decide +kernel
  · exact hformed.trans (hview.symm.trans (by decide +kernel))
  · decide +kernel
  · exact hfull.trans (htri.symm.trans (by decide +kernel))

end AugLag.SparseMatrix
