import AugLag.Proofs.Sparse.Layout
import AugLag.Sparse.Algebra

/-!
# Patterns

The pattern of a sparse matrix is what it stores apart from the values. Scaling keeps it, and with it
everything that is told from the places of the entries alone. Nothing here depends on how the scalars calculate.
-/

namespace AugLag.SparseMatrix

variable {T : Type} {M N : SparseMatrix T}

/-! ## Equal patterns -/

/-- Two matrices of one size that store the same places in the same order. -/
structure SamePattern (M N : SparseMatrix T) : Prop where
  rows_eq : M.rows = N.rows
  cols_eq : M.cols = N.cols
  colPtr_eq : M.colPtr = N.colPtr
  rowIdx_eq : M.rowIdx = N.rowIdx
  size_values : M.values.size = N.values.size

namespace SamePattern

theorem refl (M : SparseMatrix T) : SamePattern M M := ⟨rfl, rfl, rfl, rfl, rfl⟩

theorem trans {L : SparseMatrix T} (h : SamePattern L M) (h' : SamePattern M N) : SamePattern L N where
  rows_eq := h.rows_eq.trans h'.rows_eq
  cols_eq := h.cols_eq.trans h'.cols_eq
  colPtr_eq := h.colPtr_eq.trans h'.colPtr_eq
  rowIdx_eq := h.rowIdx_eq.trans h'.rowIdx_eq
  size_values := h.size_values.trans h'.size_values

theorem slots_eq (h : SamePattern M N) (j : Nat) : M.slots j = N.slots j := by
  rw [slots, slots, first, first, stop, stop, h.colPtr_eq]

theorem rowAt_eq (h : SamePattern M N) (k : Nat) : M.rowAt k = N.rowAt k := by
  rw [rowAt, rowAt, h.rowIdx_eq]

theorem wellFormed (h : SamePattern M N) (hN : WellFormed N) : WellFormed M where
  size_colPtr := by rw [h.colPtr_eq, h.cols_eq, hN.size_colPtr]
  first_zero := by rw [first, h.colPtr_eq]; exact hN.first_zero
  first_le_stop j hj := by rw [first, stop, h.colPtr_eq]; exact hN.first_le_stop j (h.cols_eq ▸ hj)
  nnz_eq := by rw [nnz, h.colPtr_eq, h.cols_eq, h.size_values]; exact hN.nnz_eq
  size_rowIdx := by rw [h.rowIdx_eq, h.size_values, hN.size_rowIdx]
  rowAt_lt k hk := by rw [h.rowAt_eq, h.rows_eq]; exact hN.rowAt_lt k (h.size_values ▸ hk)
  rows_ascend j hj := by
    rw [h.slots_eq, List.map_congr_left fun k _ => h.rowAt_eq k]
    exact hN.rows_ascend j (h.cols_eq ▸ hj)

theorem upper (h : SamePattern M N) (hN : Upper N) : Upper M := by
  intro j hj k hk
  rw [h.rowAt_eq]
  exact hN j (h.cols_eq ▸ hj) k (h.slots_eq j ▸ hk)

/-- Matrices of the same pattern differ in their values alone. -/
theorem eq_withValues (h : SamePattern M N) : { M with values := N.values } = N := by
  obtain ⟨rows, cols, colPtr, rowIdx, values⟩ := M
  obtain ⟨hrows, hcols, hptr, hidx, -⟩ := h
  dsimp only at hrows hcols hptr hidx
  subst hrows hcols hptr hidx
  rfl

/-- Equal values in equal patterns are equal matrices. -/
theorem eq_of_values [Scalar T] (h : SamePattern M N) (hN : Layout N)
    (hvalues : ∀ j < N.cols, ∀ k ∈ N.slots j, M.valueAt k = N.valueAt k) : M = N := by
  have hsame : M.values = N.values := by
    refine array_ext_getD 0 h.size_values fun k hk => ?_
    obtain ⟨j, hj, hkj⟩ := hN.exists_column (h.size_values ▸ hk)
    exact hvalues j hj k hkj
  rw [← h.eq_withValues, ← hsame]

end SamePattern

variable [Scalar T]

theorem map_fst_column (M : SparseMatrix T) (j : Nat) : (M.column j).map Prod.fst = (M.slots j).map M.rowAt := by
  simp [column, Function.comp_def]

theorem length_column (M : SparseMatrix T) (j : Nat) : (M.column j).length = M.stop j - M.first j := by
  simp [column, slots]

/-- Matrices of one size are equal if their columns are. -/
theorem Layout.ext (h : Layout M) (h' : Layout N) (hrows : M.rows = N.rows) (hcols : M.cols = N.cols)
    (hcolumn : ∀ j < N.cols, M.column j = N.column j) : M = N := by
  -- the lengths of the columns tell where they begin
  have hfirst : ∀ j ≤ N.cols, M.first j = N.first j := by
    intro j
    induction j with
    | zero => exact fun _ => h.first_zero.trans h'.first_zero.symm
    | succ j ih =>
        intro hj
        have hlen := congrArg List.length (hcolumn j hj)
        rw [length_column, length_column] at hlen
        have hle := h.first_le_stop j (by omega)
        have hle' := h'.first_le_stop j hj
        have hprev := ih (by omega)
        rw [first_succ, first_succ]
        omega
  have hptr : M.colPtr = N.colPtr := by
    refine array_ext_getD 0 (by rw [h.size_colPtr, h'.size_colPtr, hcols]) fun j hj => ?_
    rw [h.size_colPtr, hcols] at hj
    exact hfirst j (by omega)
  have hsize : M.values.size = N.values.size := by
    rw [← h.nnz_eq, ← h'.nnz_eq, nnz, nnz, hptr, hcols]
  have hslot : ∀ k < M.values.size, M.rowAt k = N.rowAt k ∧ M.valueAt k = N.valueAt k := by
    intro k hk
    obtain ⟨j, hj, hkj⟩ := h.exists_column hk
    have hmap := hcolumn j (hcols ▸ hj)
    have hslots : N.slots j = M.slots j := by rw [slots, slots, first, stop, first, stop, hptr]
    rw [column, column, hslots] at hmap
    exact Prod.mk.inj (List.map_inj_left.mp hmap k hkj)
  have hrowIdx : M.rowIdx = N.rowIdx := by
    refine array_ext_getD 0 (by rw [h.size_rowIdx, h'.size_rowIdx, hsize]) fun k hk => ?_
    rw [h.size_rowIdx] at hk
    exact (hslot k hk).1
  have hvalues : M.values = N.values := array_ext_getD 0 hsize fun k hk => (hslot k hk).2
  obtain ⟨rows, cols, colPtr, rowIdx, values⟩ := M
  dsimp only at hrows hcols hptr hrowIdx hvalues
  subst hrows hcols hptr hrowIdx hvalues
  rfl

/-! ## The zero matrix -/

theorem colPtr_zeros (rows cols j : Nat) : (zeros rows cols : SparseMatrix T).colPtr.getD j 0 = 0 := by
  rw [zeros, allocate, getD_setIfInBounds, getD_replicate]
  split_ifs <;> rfl

theorem slots_zeros (rows cols j : Nat) : (zeros rows cols : SparseMatrix T).slots j = [] := by
  rw [slots, stop, colPtr_zeros, Nat.zero_sub]
  rfl

theorem wellFormed_zeros (rows cols : Nat) : WellFormed (zeros rows cols : SparseMatrix T) where
  size_colPtr := by simp [zeros, allocate]
  first_zero := colPtr_zeros rows cols 0
  first_le_stop j _ := by rw [first, colPtr_zeros]; exact Nat.zero_le _
  nnz_eq := by simp [nnz, zeros, allocate]
  size_rowIdx := by simp [zeros, allocate]
  rowAt_lt k hk := by simp [zeros, allocate] at hk
  rows_ascend j _ := by simp [slots_zeros]

theorem upper_zeros (rows cols : Nat) : Upper (zeros rows cols : SparseMatrix T) := by
  intro j _ k hk
  rw [slots_zeros] at hk
  cases hk

/-! ## Scaling -/

theorem samePattern_scale (A : SparseMatrix T) (c : T) : SamePattern (A.scale c) A :=
  ⟨rfl, rfl, rfl, rfl, by simp [scale]⟩

variable {m n : Nat} {A : SparseMatrix T}

/-- Every slot is scaled once, by the factors of its row and its column. -/
theorem scaleBoth_values_eq (left : Vector T m) (right : Vector T n) :
    (A.scaleBoth left right).values =
      ((List.range n).flatMap fun j => (A.slots j).map fun k => (j, k)).foldl
        (fun v e => v.modify e.2 (· * (Vec.get left (A.rowAt e.2) * Vec.get right e.1))) A.values := by
  rw [List.foldl_flatMap]
  simp only [List.foldl_map]
  rfl

theorem samePattern_scaleBoth (A : SparseMatrix T) (left : Vector T m) (right : Vector T n) :
    SamePattern (A.scaleBoth left right) A :=
  ⟨rfl, rfl, rfl, rfl, (congrArg Array.size (scaleBoth_values_eq left right)).trans (size_foldl_modify ..)⟩

theorem valueAt_scaleBoth (h : Layout A) (hn : A.cols = n) (left : Vector T m) (right : Vector T n) {j k : Nat}
    (hj : j < n) (hk : k ∈ A.slots j) :
    (A.scaleBoth left right).valueAt k = A.valueAt k * (Vec.get left (A.rowAt k) * Vec.get right j) := by
  subst hn
  rw [valueAt, scaleBoth_values_eq, getD_foldl_modify _ _ _ _ (h.lt_size hj hk), h.filter_allSlots hj hk]
  rfl

end AugLag.SparseMatrix
