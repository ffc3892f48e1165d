import AugLag.Proofs.Newton.AugmentedFresh

/-!
# What is written into the augmented system

Each slot belongs to one column, and a column of the constraints is written by its own row only. So rows that are not
written keep their values, and the slots that an update lists are all that it changes. Nothing here depends on how the
scalars calculate.
-/

namespace AugLag.AugmentedSystem

open SparseMatrix

variable {T : Type} [Scalar T] {Q A : SparseMatrix T} {n m : Nat} {S : AugmentedSystem T n m}
variable {active : Vector Bool m} {sigma : Vector T m} {rho : T} {values : Array T} {r : Fin m}

/-! ## The slots of the columns -/

namespace Frame

variable (h : Frame Q A S)

include h

omit [Scalar T] in
theorem lt_size {j p : Nat} (hj : j < n + m) (hp : p ∈ S.matrix.slots j) : p < S.matrix.values.size :=
  h.matrix.lt_size (by rw [h.matrix_cols]; exact hj) hp

omit [Scalar T] in
theorem column_unique {i j p : Nat} (hi : i < n + m) (hj : j < n + m) (hpi : p ∈ S.matrix.slots i)
    (hpj : p ∈ S.matrix.slots j) : i = j := by
  rw [← h.matrix_cols] at hi hj
  exact h.matrix.column_unique hi hj hpi hpj

omit [Scalar T] in
/-- A slot of the cost is its diagonal exactly if it lies on it. -/
theorem slotOfCost_eq_diagonal {j k : Nat} (hj : j < n) (hk : k ∈ Q.slots j) :
    S.slotOfCost.getD k 0 = diagonalSlot S.matrix j ↔ Q.rowAt k = j := by
  obtain ⟨hmem, hrow⟩ := h.cost_slot j hj k hk
  obtain ⟨hdiag, hrow'⟩ := h.diagonal_slot j (by omega)
  refine ⟨fun heq => ?_, fun heq => ?_⟩
  · rw [← hrow, heq, hrow']
  · refine h.matrix.eq_of_rowAt_eq (by rw [h.matrix_cols]; omega) hmem hdiag ?_
    rw [hrow, hrow', heq]

omit [Scalar T] in
theorem slotOfCost_inj {k k' : Nat} (hk : k < Q.values.size) (hk' : k' < Q.values.size)
    (heq : S.slotOfCost.getD k 0 = S.slotOfCost.getD k' 0) : k = k' := by
  obtain ⟨j, hj, hkj⟩ := h.exists_cost_column hk
  obtain ⟨j', hj', hkj'⟩ := h.exists_cost_column hk'
  obtain ⟨hmem, hrow⟩ := h.cost_slot j hj k hkj
  obtain ⟨hmem', hrow'⟩ := h.cost_slot j' hj' k' hkj'
  rw [heq] at hmem hrow
  obtain rfl := h.column_unique (by omega) (by omega) hmem hmem'
  exact h.cost.eq_of_rowAt_eq (by rw [h.cost_cols]; exact hj) hkj hkj' (hrow.symm.trans hrow')

omit [Scalar T] in
theorem slotOfRow_inj {k k' : Nat} (hk : k ∈ A.rowIndex.row r) (hk' : k' ∈ A.rowIndex.row r)
    (heq : S.slotOfRow.getD k 0 = S.slotOfRow.getD k' 0) : k = k' := by
  have hcol := (h.row_slot r r.isLt k hk).2
  rw [heq, (h.row_slot r r.isLt k' hk').2] at hcol
  obtain ⟨hj, hkj, hrow⟩ := h.exists_column r.isLt hk
  obtain ⟨-, hkj', hrow'⟩ := h.exists_column r.isLt hk'
  rw [hcol] at hkj'
  exact h.constraints.eq_of_rowAt_eq (by rw [h.constraint_cols]; exact hj) hkj hkj' (hrow.trans hrow'.symm)

omit [Scalar T] in
theorem slotOfRow_ne_diagonal {k : Nat} (hk : k ∈ A.rowIndex.row r) :
    S.slotOfRow.getD k 0 ≠ diagonalSlot S.matrix (n + r) := by
  intro heq
  have hrow := (h.row_slot r r.isLt k hk).2
  rw [heq, (h.diagonal_slot (n + r) (by omega)).2] at hrow
  have := (h.exists_column r.isLt hk).1
  omega

omit [Scalar T] in
theorem eq_of_diagonalSlot_eq {i j p : Nat} (hi : i < n + m) (hj : j < n + m) (hp : p ∈ S.matrix.slots j)
    (heq : diagonalSlot S.matrix i = p) : i = j :=
  h.column_unique hi hj (heq ▸ (h.diagonal_slot i hi).1) hp

omit [Scalar T] in
theorem diagonal_inj {i j : Nat} (hi : i < n + m) (hj : j < n + m)
    (heq : diagonalSlot S.matrix i = diagonalSlot S.matrix j) : i = j :=
  h.eq_of_diagonalSlot_eq hi hj (h.diagonal_slot j hj).1 heq

end Frame

omit [Scalar T] in
/-- The slots of a row are those of its column. -/
theorem mem_rowSlots (h : Frame Q A S) {p : Nat} : p ∈ S.rowSlots r ↔ p ∈ S.matrix.slots (n + r) := by
  rw [rowSlots, h.rows_eq, List.mem_append, List.mem_map, List.mem_singleton]
  constructor
  · rintro (⟨k, hk, rfl⟩ | rfl)
    · exact (h.row_slot r r.isLt k hk).1
    · exact (h.diagonal_slot (n + r) (by omega)).1
  · intro hp
    rcases h.row_cases r r.isLt p hp with hdiag | ⟨k, hk, hplace⟩
    · exact .inr hdiag
    · exact .inl ⟨k, hk, hplace⟩

omit [Scalar T] in
/-- The diagonals of the other columns are elsewhere. -/
theorem filter_diagonal (h : Frame Q A S) {j p : Nat} (hj : j < n) (hp : p ∈ S.matrix.slots j) :
    ((List.range n).filter fun i => diagonalSlot S.matrix i = p) = if p = diagonalSlot S.matrix j then [j] else [] := by
  have hcolumn : ∀ i < n, diagonalSlot S.matrix i = p → i = j :=
    fun i hi => h.eq_of_diagonalSlot_eq (by omega) (by omega) hp
  by_cases hdiag : p = diagonalSlot S.matrix j
  · have hfilter : ((List.range n).filter fun i => diagonalSlot S.matrix i = p) = (List.range n).filter fun i => i = j := by
      refine List.filter_congr fun i hi => decide_eq_decide.mpr ⟨hcolumn i (List.mem_range.mp hi), fun heq => ?_⟩
      rw [heq, hdiag]
    rw [if_pos hdiag, hfilter, List.filter_eq, List.count_eq_one_of_mem List.nodup_range (List.mem_range.mpr hj)]
    rfl
  · rw [if_neg hdiag]
    refine List.filter_eq_nil_iff.mpr fun i hi heq => hdiag ?_
    rw [decide_eq_true_eq] at heq
    rw [← hcolumn i (List.mem_range.mp hi) heq, heq]

/-! ## Rows -/

theorem writeRow_of_notMem (h : Frame Q A S) {p : Nat} (hp : p ∉ S.matrix.slots (n + r)) :
    (S.writeRow A active sigma values r).getD p 0 = values.getD p 0 := by
  have hdiag : diagonalSlot S.matrix (n + r) ≠ p := fun heq => hp (heq ▸ (h.diagonal_slot (n + r) (by omega)).1)
  rw [writeRow, getD_setIfInBounds_of_ne _ _ _ hdiag, h.rows_eq]
  refine getD_foldl_set_of_forall_ne _ _ _ _ _ fun k hk heq => hp ?_
  exact heq ▸ (h.row_slot r r.isLt k hk).1

theorem writeRows_of_notMem (h : Frame Q A S) (l : List (Fin m)) {p : Nat}
    (hp : ∀ r ∈ l, p ∉ S.matrix.slots (n + r)) :
    (l.foldl (S.writeRow A active sigma) values).getD p 0 = values.getD p 0 := by
  induction l generalizing values with
  | nil => rfl
  | cons r l ih =>
      rw [List.foldl_cons, ih fun r' hr' => hp r' (List.mem_cons_of_mem _ hr'),
        writeRow_of_notMem h (hp r List.mem_cons_self)]

/-- A row that is not written, and the cost, do not change. -/
theorem writeRows_column (h : Frame Q A S) (l : List (Fin m)) {j p : Nat} (hj : j < n + m)
    (hl : ∀ r ∈ l, n + r ≠ j) (hp : p ∈ S.matrix.slots j) :
    (l.foldl (S.writeRow A active sigma) values).getD p 0 = values.getD p 0 := by
  refine writeRows_of_notMem h l fun r hr hpr => hl r hr ?_
  exact h.column_unique (by omega) hj hpr hp

/-! ## Changes of a state -/

/-- The values of the cost after a change of its weight. -/
def shifted (S : AugmentedSystem T n m) (rho : T) : Array T :=
  (if rho == S.rho then [] else List.range n).foldl
    (fun v j => v.setIfInBounds (diagonalSlot S.matrix j) (S.costDiag.getD j 0 + rho)) S.matrix.values

theorem size_shifted (S : AugmentedSystem T n m) (rho : T) : (S.shifted rho).size = S.matrix.values.size := by
  rw [shifted, size_foldl_setIfInBounds]

theorem shifted_of_ne {p : Nat} (hp : ∀ j < n, diagonalSlot S.matrix j ≠ p) :
    (S.shifted rho).getD p 0 = S.matrix.values.getD p 0 := by
  refine getD_foldl_set_of_forall_ne _ _ _ _ _ fun j hj => ?_
  split at hj
  · cases hj
  · exact hp j (List.mem_range.mp hj)

theorem shifted_diagonal (h : Frame Q A S) {j : Nat} (hj : j < n) (hrho : ¬(rho == S.rho) = true) :
    (S.shifted rho).getD (diagonalSlot S.matrix j) 0 = S.costDiag.getD j 0 + rho := by
  have hlt := h.lt_size (by omega) (h.diagonal_slot j (by omega)).1
  rw [shifted, if_neg hrho]
  refine getD_foldl_set_of_mem _ _ _ _ _ hlt ⟨j, List.mem_range.mpr hj, rfl⟩ fun i hi heq => ?_
  rw [List.mem_range] at hi
  rw [h.diagonal_inj (by omega) (by omega) heq]

/-- A slot that is listed is one of the system. -/
theorem reassemble_slot_lt (h : Frame Q A S) {p : Nat} (hp : p ∈ (S.reassemble A active sigma rho).2) :
    p < S.matrix.values.size := by
  rcases List.mem_append.mp hp with hp | hp
  · obtain ⟨j, hj, rfl⟩ := List.mem_map.mp hp
    split at hj
    · cases hj
    · have := List.mem_range.mp hj
      exact h.lt_size (by omega) (h.diagonal_slot j (by omega)).1
  · obtain ⟨r, -, hp⟩ := List.mem_flatMap.mp hp
    exact h.lt_size (by omega) ((mem_rowSlots h).mp hp)

/-- A slot that is not listed keeps its value. -/
theorem reassemble_of_notMem (h : Frame Q A S) {p : Nat} (hp : p ∉ (S.reassemble A active sigma rho).2) :
    (S.reassemble A active sigma rho).1.getD p 0 = S.matrix.values.getD p 0 := by
  simp only [reassemble, List.mem_append, not_or] at hp
  refine (writeRows_of_notMem h _ fun r hr hpr => hp.2 ?_).trans ?_
  · exact List.mem_flatMap.mpr ⟨r, hr, (mem_rowSlots h).mpr hpr⟩
  · refine getD_foldl_set_of_forall_ne _ _ _ _ _ fun j hj heq => hp.1 ?_
    exact List.mem_map.mpr ⟨j, hj, heq⟩

/-! ## Before the first update -/

theorem valueAt_pattern (Q A : SparseMatrix T) (p : Nat) : (pattern Q A A.rowIndex).valueAt p = 0 := by
  rw [pattern_eq]
  by_cases hp : p < (ofColumns (A.cols + A.rows)
      ((List.range (A.cols + A.rows)).map fun j => (rowsOfColumn Q A j).map fun i => (i, (0 : T)))).values.size
  · rw [valueAt, Array.getD_eq_getD_getElem?, Array.getElem?_eq_getElem hp, Option.getD_some]
    have hmem := Array.getElem_mem hp
    simp only [ofColumns, List.mem_toArray, List.mem_flatMap, List.mem_map] at hmem
    obtain ⟨c, ⟨j, -, rfl⟩, e, he, hvalue⟩ := hmem
    obtain ⟨i, -, rfl⟩ := List.mem_map.mp he
    exact hvalue.symm
  · exact getD_of_size_le _ (not_lt.mp hp) 0

theorem valueAt_start_diagonal (h : NewtonData Q A n m) (F : Factorization T) {j : Nat} (hj : j < n + m) :
    (start Q A n m F).matrix.valueAt (diagonalSlot (start Q A n m F).matrix j) = if j < n then 1 else -1 := by
  have hframe := frame_start h F
  have hcols : (pattern Q A A.rowIndex).cols = n + m := hframe.matrix_cols
  have hlt := hframe.lt_size hj (hframe.diagonal_slot j hj).1
  rw [← h.constraint_cols]
  refine getD_foldl_set_of_mem _ _ _ _ _ ?_ ⟨j, List.mem_range.mpr (hcols.symm ▸ hj), rfl⟩ fun i hi heq => ?_
  · rwa [show (start Q A n m F).matrix.values.size = (pattern Q A A.rowIndex).values.size from
      size_foldl_setIfInBounds ..] at hlt
  · rw [List.mem_range, hcols] at hi
    rw [hframe.diagonal_inj hi hj heq]

theorem valueAt_start_of_ne (h : NewtonData Q A n m) (F : Factorization T) {p : Nat}
    (hp : ∀ j < n + m, diagonalSlot (start Q A n m F).matrix j ≠ p) : (start Q A n m F).matrix.valueAt p = 0 := by
  have hcols : (pattern Q A A.rowIndex).cols = n + m := (frame_start h F).matrix_cols
  refine (getD_foldl_set_of_forall_ne _ _ _ _ _ fun j hj => ?_).trans (valueAt_pattern Q A p)
  exact hp j (hcols ▸ List.mem_range.mp hj)

end AugLag.AugmentedSystem
