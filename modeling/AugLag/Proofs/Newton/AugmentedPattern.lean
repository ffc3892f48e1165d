import AugLag.Proofs.Factor.Analysis
import AugLag.Proofs.Newton.Hessian
import AugLag.Newton.Augmented

/-!
# The pattern of the augmented system

A column of the variables holds the rows of the cost and its diagonal, and a column of the constraints holds a row of
the constraints and its diagonal, which comes last. The slots of the cost and of the constraints know their places.
-/

namespace AugLag

open SparseMatrix

namespace SparseMatrix

variable {T : Type} {M : SparseMatrix T}

/-- The slots of a column whose rows are given as a list. -/
theorem slots_of_rows {c : Nat} {rows : List Nat} (h : (M.slots c).map M.rowAt = rows) (hle : M.first c ≤ M.stop c) :
    M.stop c = M.first c + rows.length ∧
      ∀ t, (ht : t < rows.length) → M.first c + t ∈ M.slots c ∧ M.rowAt (M.first c + t) = rows[t] := by
  have hlen : (M.slots c).length = rows.length := by
    rw [← h, List.length_map]
  rw [slots, List.length_range'] at hlen
  have hstop : M.stop c = M.first c + rows.length := by omega
  refine ⟨hstop, fun t ht => ⟨?_, ?_⟩⟩
  · rw [mem_slots]
    omega
  · subst h
    simp [slots]

end SparseMatrix

namespace AugmentedSystem

/-! ## The places of slots -/

section Places

variable {T : Type}

/-- Slots that are listed once each are assigned to consecutive slots of their columns. -/
theorem getD_assignSlots {M : SparseMatrix T} (N size : Nat) (column : Nat → Nat) (lists : Nat → List Nat)
    (hnodup : ∀ j < N, (lists j).Nodup) (hdisjoint : ∀ j < N, ∀ j' < N, ∀ k ∈ lists j, k ∈ lists j' → j = j')
    (hsize : ∀ j < N, ∀ k ∈ lists j, k < size) {j t : Nat} (hj : j < N) (ht : t < (lists j).length) :
    ((List.range N).foldl (fun target j => assignSlots M (column j) (lists j) target) (Array.replicate size 0)).getD
      (lists j)[t] 0 = M.first (column j) + t := by
  have hflat : (List.range N).foldl (fun target j => assignSlots M (column j) (lists j) target) (Array.replicate size 0) =
      ((List.range N).flatMap fun j => ((lists j).zip (List.range (lists j).length)).map fun e => (j, e)).foldl
        (fun target e => target.setIfInBounds e.2.1 (M.first (column e.1) + e.2.2)) (Array.replicate size 0) := by
    rw [List.foldl_flatMap]
    simp only [List.foldl_map]
    rfl
  rw [hflat]
  refine getD_foldl_set_of_mem _ _ _ _ _ ?_ ⟨(j, ((lists j)[t], t)), ?_, rfl⟩ fun e he heq => ?_
  · rw [Array.size_replicate]
    exact hsize j hj _ (List.getElem_mem ht)
  · refine List.mem_flatMap.mpr ⟨j, List.mem_range.mpr hj, List.mem_map_of_mem ?_⟩
    exact List.mem_iff_getElem.mpr ⟨t, by simpa using ht, by simp⟩
  · obtain ⟨j', hj', he'⟩ := List.mem_flatMap.mp he
    rw [List.mem_range] at hj'
    obtain ⟨⟨k, t'⟩, hmem, rfl⟩ := List.mem_map.mp he'
    obtain ⟨s, hs, hget⟩ := List.mem_iff_getElem.mp hmem
    rw [List.getElem_zip, List.getElem_range, Prod.mk.injEq] at hget
    obtain ⟨hk, rfl⟩ := hget
    have hs' : s < (lists j').length := by
      rw [List.length_zip, List.length_range, min_self] at hs
      exact hs
    have heq' : (lists j')[s] = (lists j)[t] := hk.trans heq
    obtain rfl := hdisjoint j' hj' j hj _ (heq' ▸ List.getElem_mem hs') (List.getElem_mem ht)
    rw [(hnodup j' hj').getElem_inj_iff.mp heq']

/-- A column that begins with the places of a list and ends with its diagonal. -/
theorem column_spec {M : SparseMatrix T} {c : Nat} {rows l : List Nat} {f : Nat → Nat} {target : Array Nat}
    (hrows : (M.slots c).map M.rowAt = rows) (hle : M.first c ≤ M.stop c) (hlast : rows.getLast? = some c)
    (hbegin : ∀ t, (ht : t < l.length) → ∃ h : t < rows.length, rows[t] = f l[t]) (hlen : rows.length ≤ l.length + 1)
    (htarget : ∀ t, (ht : t < l.length) → target.getD l[t] 0 = M.first c + t) :
    (∀ k ∈ l, target.getD k 0 ∈ M.slots c ∧ M.rowAt (target.getD k 0) = f k) ∧
      (diagonalSlot M c ∈ M.slots c ∧ M.rowAt (diagonalSlot M c) = c) ∧
      ∀ p ∈ M.slots c, p = diagonalSlot M c ∨ ∃ k ∈ l, target.getD k 0 = p := by
  obtain ⟨hstop, hplace⟩ := slots_of_rows hrows hle
  have hne : rows ≠ [] := by
    rintro rfl
    cases hlast
  have hpos := List.length_pos_iff.mpr hne
  have hdiag : diagonalSlot M c = M.first c + (rows.length - 1) := by
    unfold diagonalSlot
    omega
  refine ⟨fun k hk => ?_, ?_, fun p hp => ?_⟩
  · obtain ⟨t, ht, rfl⟩ := List.mem_iff_getElem.mp hk
    obtain ⟨ht', hget⟩ := hbegin t ht
    rw [htarget t ht, ← hget]
    exact hplace t ht'
  · rw [hdiag]
    obtain ⟨hmem, hrow⟩ := hplace (rows.length - 1) (by omega)
    refine ⟨hmem, hrow.trans ?_⟩
    rw [List.getLast?_eq_getElem?, List.getElem?_eq_getElem (by omega), Option.some_inj] at hlast
    exact hlast
  · rw [mem_slots] at hp
    by_cases heq : p = diagonalSlot M c
    · exact .inl heq
    · have ht : p - M.first c < l.length := by omega
      refine .inr ⟨l[p - M.first c], List.getElem_mem ht, ?_⟩
      rw [htarget _ ht]
      omega

theorem size_foldl_assignSlots {M : SparseMatrix T} (N : Nat) (column : Nat → Nat) (lists : Nat → List Nat) (target : Array Nat) :
    ((List.range N).foldl (fun target j => assignSlots M (column j) (lists j) target) target).size = target.size := by
  generalize List.range N = l
  induction l generalizing target with
  | nil => rfl
  | cons j l ih =>
      rw [List.foldl_cons, ih, assignSlots, size_foldl_setIfInBounds]

end Places

/-! ## The columns of the pattern -/

section Columns

variable {T : Type} {Q : SparseMatrix T}

theorem mem_costColumn {j i : Nat} : i ∈ costColumn Q j ↔ (∃ k ∈ Q.slots j, Q.rowAt k = i) ∨ i = j := by
  unfold costColumn
  simp only
  by_cases hlast : ((Q.slots j).map Q.rowAt).getLast? = some j
  · rw [if_pos hlast, List.mem_map]
    refine ⟨.inl, fun hor => ?_⟩
    rcases hor with hex | rfl
    · exact hex
    · exact List.mem_map.mp (List.mem_of_getLast? hlast)
  · rw [if_neg hlast, List.mem_append, List.mem_map, List.mem_singleton]

/-- The diagonal is the last row of a column of the cost. -/
theorem getLast_costColumn (j : Nat) : (costColumn Q j).getLast? = some j := by
  unfold costColumn
  simp only
  by_cases hlast : ((Q.slots j).map Q.rowAt).getLast? = some j
  · rw [if_pos hlast, hlast]
  · rw [if_neg hlast, List.getLast?_concat]

theorem costColumn_slot {j t : Nat} (ht : t < Q.stop j - Q.first j) :
    ∃ h : t < (costColumn Q j).length, (costColumn Q j)[t] = Q.rowAt (Q.first j + t) := by
  have hlen : t < ((Q.slots j).map Q.rowAt).length := by
    rw [List.length_map, slots, List.length_range']
    exact ht
  have hget : ((Q.slots j).map Q.rowAt)[t] = Q.rowAt (Q.first j + t) := by
    simp [slots]
  unfold costColumn
  simp only
  by_cases hlast : ((Q.slots j).map Q.rowAt).getLast? = some j
  · rw [if_pos hlast]
    exact ⟨hlen, hget⟩
  · rw [if_neg hlast]
    refine ⟨by rw [List.length_append]; omega, ?_⟩
    rw [List.getElem_append_left hlen, hget]

theorem length_costColumn (j : Nat) : (costColumn Q j).length ≤ (Q.slots j).length + 1 := by
  unfold costColumn
  simp only
  by_cases hlast : ((Q.slots j).map Q.rowAt).getLast? = some j
  · rw [if_pos hlast, List.length_map]
    exact Nat.le_succ _
  · rw [if_neg hlast, List.length_append, List.length_map, List.length_singleton]

end Columns

variable {K : Type} [Scalar K] {Q A : SparseMatrix K} {n m : Nat}

/-- The rows that a column of the pattern holds. -/
def rowsOfColumn (Q A : SparseMatrix K) (j : Nat) : List Nat :=
  if j < A.cols then costColumn Q j
  else (A.rowIndex.row (j - A.cols)).map (A.columnOfSlot.getD · 0) ++ [j]

theorem pattern_eq (Q A : SparseMatrix K) :
    pattern Q A A.rowIndex =
      ofColumns (A.cols + A.rows)
        ((List.range (A.cols + A.rows)).map fun j => (rowsOfColumn Q A j).map fun i => (i, (0 : K))) := by
  have hrange : List.range (A.cols + A.rows) = List.range A.cols ++ (List.range A.rows).map (A.cols + ·) :=
    List.range_add
  simp only [pattern, hrange, List.map_append, List.map_map]
  refine congrArg (ofColumns _) (congrArg₂ (· ++ ·) ?_ ?_)
  · refine List.map_congr_left fun j hj => ?_
    simp only [Function.comp_apply, rowsOfColumn]
    rw [if_pos (List.mem_range.mp hj)]
  · refine List.map_congr_left fun r _ => ?_
    simp only [Function.comp_apply, rowsOfColumn]
    rw [if_neg (by omega), Nat.add_sub_cancel_left]

/-- The largest element of an ascending list is its last one. -/
theorem getLast_of_mem {l : List Nat} {j : Nat} (hasc : l.Pairwise (· < ·)) (hle : ∀ i ∈ l, i ≤ j) (hj : j ∈ l) :
    l.getLast? = some j := by
  induction l using List.reverseRecOn with
  | nil => exact absurd hj List.not_mem_nil
  | append_singleton init last _ =>
      rw [List.getLast?_concat]
      rcases List.mem_append.mp hj with hinit | hlast
      · have hlt := (List.pairwise_append.mp hasc).2.2 j hinit last (List.mem_singleton_self _)
        have := hle last (List.mem_append_right _ (List.mem_singleton_self _))
        omega
      · rw [List.mem_singleton.mp hlast]

omit [Scalar K] in
/-- Rows that ascend up to the diagonal. -/
theorem ascend_costColumn (h : NewtonData Q A n m) {j : Nat} (hj : j < n) : (costColumn Q j).Pairwise (· < ·) := by
  have hasc := h.cost.rows_ascend j (by rw [h.cost_cols]; exact hj)
  unfold costColumn
  simp only
  by_cases hlast : ((Q.slots j).map Q.rowAt).getLast? = some j
  · rw [if_pos hlast]
    exact hasc
  · rw [if_neg hlast, List.pairwise_append]
    refine ⟨hasc, List.pairwise_singleton _ _, fun i hi i' hi' => ?_⟩
    rw [List.mem_singleton] at hi'
    subst hi'
    obtain ⟨k, hk, rfl⟩ := List.mem_map.mp hi
    refine lt_of_le_of_ne (h.cost_row_le hj hk) fun heq => hlast ?_
    refine getLast_of_mem hasc (fun i hi => ?_) (heq ▸ hi)
    obtain ⟨k', hk', rfl⟩ := List.mem_map.mp hi
    exact h.cost_row_le hj hk'

omit [Scalar K] in
theorem ascend_rowsOfColumn (h : NewtonData Q A n m) {j : Nat} (hj : j < n + m) :
    (rowsOfColumn Q A j).Pairwise (· < ·) ∧ ∀ i ∈ rowsOfColumn Q A j, i ≤ j := by
  unfold rowsOfColumn
  rw [h.constraint_cols]
  by_cases hjn : j < n
  · rw [if_pos hjn]
    refine ⟨ascend_costColumn h hjn, fun i hi => ?_⟩
    rcases mem_costColumn.mp hi with ⟨k, hk, rfl⟩ | rfl
    · exact h.cost_row_le hjn hk
    · exact le_rfl
  · rw [if_neg hjn]
    have hr : j - n < m := by omega
    have hbelow : ∀ i ∈ (A.rowIndex.row (j - n)).map (A.columnOfSlot.getD · 0), i < n := by
      intro i hi
      obtain ⟨k, hk, rfl⟩ := List.mem_map.mp hi
      exact (h.exists_column hr hk).1
    refine ⟨List.pairwise_append.mpr ⟨h.row_ascends hr, List.pairwise_singleton _ _, fun i hi i' hi' => ?_⟩,
      fun i hi => ?_⟩
    · rw [List.mem_singleton] at hi'
      have := hbelow i hi
      omega
    · rcases List.mem_append.mp hi with hi | hi
      · have := hbelow i hi
        omega
      · exact (List.mem_singleton.mp hi).le

omit [Scalar K] in
theorem getLast_rowsOfColumn (Q A : SparseMatrix K) (j : Nat) : (rowsOfColumn Q A j).getLast? = some j := by
  unfold rowsOfColumn
  by_cases hj : j < A.cols
  · rw [if_pos hj, getLast_costColumn]
  · rw [if_neg hj, List.getLast?_concat]

theorem layout_pattern (Q A : SparseMatrix K) : Layout (pattern Q A A.rowIndex) := by
  rw [pattern_eq]
  exact layout_ofColumns _ _

theorem cols_pattern (Q A : SparseMatrix K) : (pattern Q A A.rowIndex).cols = A.cols + A.rows := by
  simp [pattern_eq, ofColumns]

theorem rows_pattern (Q A : SparseMatrix K) {j : Nat} (hj : j < A.cols + A.rows) :
    ((pattern Q A A.rowIndex).slots j).map (pattern Q A A.rowIndex).rowAt = rowsOfColumn Q A j := by
  rw [pattern_eq, rows_ofColumns (by simpa using hj), List.getElem_map, List.getElem_range, List.map_map]
  exact List.map_id _

theorem wellFormed_pattern (h : NewtonData Q A n m) : WellFormed (pattern Q A A.rowIndex) := by
  rw [pattern_eq, h.constraint_cols, h.constraint_rows]
  refine wellFormed_ofColumns (fun c hc e he => ?_) fun c hc => ?_
  · obtain ⟨j, hj, rfl⟩ := List.mem_map.mp hc
    obtain ⟨i, hi, rfl⟩ := List.mem_map.mp he
    rw [List.mem_range] at hj
    exact ((ascend_rowsOfColumn h hj).2 i hi).trans_lt hj
  · obtain ⟨j, hj, rfl⟩ := List.mem_map.mp hc
    rw [List.map_map]
    exact (List.map_id _).symm ▸ (ascend_rowsOfColumn h (List.mem_range.mp hj)).1

theorem upper_pattern (h : NewtonData Q A n m) : (pattern Q A A.rowIndex).Upper := by
  intro j hj k hk
  rw [cols_pattern] at hj
  have hmem := List.mem_map_of_mem (f := (pattern Q A A.rowIndex).rowAt) hk
  rw [rows_pattern Q A hj] at hmem
  rw [h.constraint_cols, h.constraint_rows] at hj
  exact (ascend_rowsOfColumn h hj).2 _ hmem

/-! ## The places of the data -/

/-- The static part of the system: its pattern, and the places of the slots of its data. -/
structure Frame (Q A : SparseMatrix K) (S : AugmentedSystem K n m) : Prop extends NewtonData Q A n m where
  matrix : WellFormed S.matrix
  matrix_cols : S.matrix.cols = n + m
  matrix_rows : S.matrix.rows = n + m
  matrix_upper : S.matrix.Upper
  rows_eq : S.rows = A.rowIndex
  size_slotOfCost : S.slotOfCost.size = Q.values.size
  cost_slot : ∀ j < n, ∀ k ∈ Q.slots j,
    S.slotOfCost.getD k 0 ∈ S.matrix.slots j ∧ S.matrix.rowAt (S.slotOfCost.getD k 0) = Q.rowAt k
  row_slot : ∀ r < m, ∀ k ∈ A.rowIndex.row r,
    S.slotOfRow.getD k 0 ∈ S.matrix.slots (n + r) ∧
      S.matrix.rowAt (S.slotOfRow.getD k 0) = A.columnOfSlot.getD k 0
  diagonal_slot : ∀ j < n + m,
    diagonalSlot S.matrix j ∈ S.matrix.slots j ∧ S.matrix.rowAt (diagonalSlot S.matrix j) = j
  cost_cases : ∀ j < n, ∀ p ∈ S.matrix.slots j,
    p = diagonalSlot S.matrix j ∨ ∃ k ∈ Q.slots j, S.slotOfCost.getD k 0 = p
  row_cases : ∀ r < m, ∀ p ∈ S.matrix.slots (n + r),
    p = diagonalSlot S.matrix (n + r) ∨ ∃ k ∈ A.rowIndex.row r, S.slotOfRow.getD k 0 = p

/-- The values of the cost come with the slots that hold them. -/
theorem Frame.mem_zip_slotOfCost {S : AugmentedSystem K n m} (h : Frame Q A S) {k : Nat} (hk : k < Q.values.size) :
    (S.slotOfCost.getD k 0, Q.valueAt k) ∈ S.slotOfCost.toList.zip Q.values.toList := by
  have hk' : k < S.slotOfCost.size := by rw [h.size_slotOfCost]; exact hk
  refine List.mem_iff_getElem.mpr ⟨k, by simpa using ⟨hk', hk⟩, ?_⟩
  simp [valueAt, Array.getD_eq_getD_getElem?, hk, hk']

/-- The slots of the system that hold the slots of the cost. -/
def costPlaces (Q A : SparseMatrix K) : Array Nat :=
  (List.range A.cols).foldl (fun t j => assignSlots (pattern Q A A.rowIndex) j (Q.slots j) t) (Array.replicate Q.nnz 0)

/-- The slots of the system that hold the slots of the constraints. -/
def constraintPlaces (Q A : SparseMatrix K) : Array Nat :=
  (List.range A.rows).foldl (fun t r => assignSlots (pattern Q A A.rowIndex) (A.cols + r) (A.rowIndex.row r) t)
    (Array.replicate A.nnz 0)

theorem costPlaces_spec (h : NewtonData Q A n m) {j t : Nat} (hj : j < n) (ht : t < (Q.slots j).length) :
    (costPlaces Q A).getD (Q.slots j)[t] 0 = (pattern Q A A.rowIndex).first j + t := by
  unfold costPlaces
  rw [h.constraint_cols]
  refine getD_assignSlots n Q.nnz id Q.slots (fun j _ => Q.nodup_slots j) (fun j hj j' hj' k hk hk' => ?_)
    (fun j hj k hk => ?_) hj ht
  · rw [← h.cost_cols] at hj hj'
    exact h.cost.column_unique hj hj' hk hk'
  · rw [h.cost.nnz_eq]
    exact h.cost_lt hj hk

theorem constraintPlaces_spec (h : NewtonData Q A n m) {r t : Nat} (hr : r < m) (ht : t < (A.rowIndex.row r).length) :
    (constraintPlaces Q A).getD (A.rowIndex.row r)[t] 0 = (pattern Q A A.rowIndex).first (n + r) + t := by
  unfold constraintPlaces
  rw [h.constraint_cols, h.constraint_rows]
  refine getD_assignSlots m A.nnz (n + ·) A.rowIndex.row (fun r hr => ?_) (fun r hr r' hr' k hk hk' => ?_)
    (fun r hr k hk => ?_) hr ht
  · exact List.Nodup.of_map _ ((h.row_ascends hr).imp fun hlt => hlt.ne)
  · exact ((h.mem_row hr).mp hk).2.symm.trans ((h.mem_row hr').mp hk').2
  · rw [h.constraints.nnz_eq]
    exact ((h.mem_row hr).mp hk).1

theorem cost_column_spec (h : NewtonData Q A n m) {j : Nat} (hj : j < n) :
    (∀ k ∈ Q.slots j, (costPlaces Q A).getD k 0 ∈ (pattern Q A A.rowIndex).slots j ∧
        (pattern Q A A.rowIndex).rowAt ((costPlaces Q A).getD k 0) = Q.rowAt k) ∧
      (diagonalSlot (pattern Q A A.rowIndex) j ∈ (pattern Q A A.rowIndex).slots j ∧
        (pattern Q A A.rowIndex).rowAt (diagonalSlot (pattern Q A A.rowIndex) j) = j) ∧
      ∀ p ∈ (pattern Q A A.rowIndex).slots j,
        p = diagonalSlot (pattern Q A A.rowIndex) j ∨ ∃ k ∈ Q.slots j, (costPlaces Q A).getD k 0 = p := by
  have hjA : j < A.cols := h.constraint_cols ▸ hj
  have hrows : rowsOfColumn Q A j = costColumn Q j := if_pos hjA
  refine column_spec (rows_pattern Q A (Nat.lt_add_right _ hjA)) ?_ (getLast_rowsOfColumn Q A j) (fun t ht => ?_) ?_
    fun t ht => costPlaces_spec h hj ht
  · exact (layout_pattern Q A).first_le_stop j (by rw [cols_pattern]; omega)
  · have ht' : t < Q.stop j - Q.first j := by
      rwa [slots, List.length_range'] at ht
    obtain ⟨hlt, hget⟩ := costColumn_slot ht'
    simp only [hrows]
    refine ⟨hlt, hget.trans ?_⟩
    simp [slots]
  · rw [hrows]
    exact length_costColumn j

theorem constraint_column_spec (h : NewtonData Q A n m) {r : Nat} (hr : r < m) :
    (∀ k ∈ A.rowIndex.row r, (constraintPlaces Q A).getD k 0 ∈ (pattern Q A A.rowIndex).slots (n + r) ∧
        (pattern Q A A.rowIndex).rowAt ((constraintPlaces Q A).getD k 0) = A.columnOfSlot.getD k 0) ∧
      (diagonalSlot (pattern Q A A.rowIndex) (n + r) ∈ (pattern Q A A.rowIndex).slots (n + r) ∧
        (pattern Q A A.rowIndex).rowAt (diagonalSlot (pattern Q A A.rowIndex) (n + r)) = n + r) ∧
      ∀ p ∈ (pattern Q A A.rowIndex).slots (n + r),
        p = diagonalSlot (pattern Q A A.rowIndex) (n + r) ∨
          ∃ k ∈ A.rowIndex.row r, (constraintPlaces Q A).getD k 0 = p := by
  have hsize : n + r < A.cols + A.rows := by
    rw [h.constraint_cols, h.constraint_rows]
    omega
  have hrows : rowsOfColumn Q A (n + r) = (A.rowIndex.row r).map (A.columnOfSlot.getD · 0) ++ [n + r] := by
    unfold rowsOfColumn
    rw [h.constraint_cols, if_neg (by omega), Nat.add_sub_cancel_left]
  refine column_spec (rows_pattern Q A hsize) ?_ (getLast_rowsOfColumn Q A (n + r)) (fun t ht => ?_) ?_
    fun t ht => constraintPlaces_spec h hr ht
  · exact (layout_pattern Q A).first_le_stop (n + r) (by rw [cols_pattern]; exact hsize)
  · simp only [hrows]
    refine ⟨by rw [List.length_append, List.length_map]; omega, ?_⟩
    rw [List.getElem_append_left (by rwa [List.length_map]), List.getElem_map]
  · rw [hrows, List.length_append, List.length_map, List.length_singleton]

/-- Each column of the pattern ends with its diagonal. -/
theorem diagonal_pattern (h : NewtonData Q A n m) {j : Nat} (hj : j < n + m) :
    diagonalSlot (pattern Q A A.rowIndex) j ∈ (pattern Q A A.rowIndex).slots j ∧
      (pattern Q A A.rowIndex).rowAt (diagonalSlot (pattern Q A A.rowIndex) j) = j := by
  by_cases hjn : j < n
  · exact (cost_column_spec h hjn).2.1
  · obtain ⟨r, rfl⟩ := Nat.exists_eq_add_of_le (not_lt.mp hjn)
    exact (constraint_column_spec h (Nat.lt_of_add_lt_add_left hj)).2.1

variable {S S' : AugmentedSystem K n m}

theorem frame_of_pattern (h : NewtonData Q A n m) (hmatrix : S.matrix = pattern Q A A.rowIndex)
    (hcost : S.slotOfCost = costPlaces Q A) (hrow : S.slotOfRow = constraintPlaces Q A) (hrows : S.rows = A.rowIndex) :
    Frame Q A S := by
  have hcols : (pattern Q A A.rowIndex).cols = n + m := by
    rw [cols_pattern, h.constraint_cols, h.constraint_rows]
  have hsize : (pattern Q A A.rowIndex).rows = n + m := by
    rw [pattern_eq, h.constraint_cols, h.constraint_rows]
    rfl
  have hplaces : (costPlaces Q A).size = Q.values.size :=
    (size_foldl_assignSlots A.cols id Q.slots _).trans (Array.size_replicate.trans h.cost.nnz_eq)
  obtain ⟨matrix, slotOfCost, slotOfRow, rows, factors, costDiag, active, sigma, rho, factored⟩ := S
  subst hmatrix hcost hrow hrows
  exact
    { h with
      matrix := wellFormed_pattern h
      matrix_cols := hcols
      matrix_rows := hsize
      matrix_upper := upper_pattern h
      rows_eq := rfl
      size_slotOfCost := hplaces
      cost_slot := fun j hj => (cost_column_spec h hj).1
      row_slot := fun r hr => (constraint_column_spec h hr).1
      diagonal_slot := fun j hj => diagonal_pattern h hj
      cost_cases := fun j hj => (cost_column_spec h hj).2.2
      row_cases := fun r hr => (constraint_column_spec h hr).2.2 }

omit [Scalar K] in
/-- The frame does not depend on the values. -/
theorem Frame.of_same (h : Frame Q A S) {values : Array K} (hs : values.size = S.matrix.values.size)
    (hmatrix : S'.matrix = { S.matrix with values }) (hcost : S'.slotOfCost = S.slotOfCost)
    (hrow : S'.slotOfRow = S.slotOfRow) (hrows : S'.rows = S.rows) : Frame Q A S' := by
  obtain ⟨matrix', slotOfCost', slotOfRow', rows', factors', costDiag', active', sigma', rho', factored'⟩ := S'
  subst hmatrix hcost hrow hrows
  exact
    { h.toNewtonData with
      matrix := h.matrix.withValues hs
      matrix_cols := h.matrix_cols
      matrix_rows := h.matrix_rows
      matrix_upper := h.matrix_upper
      rows_eq := h.rows_eq
      size_slotOfCost := h.size_slotOfCost
      cost_slot := h.cost_slot
      row_slot := h.row_slot
      diagonal_slot := h.diagonal_slot
      cost_cases := h.cost_cases
      row_cases := h.row_cases }

/-! ## The system before its first update -/

/-- One and minus one on the diagonal of the pattern. -/
def initialValues (Q A : SparseMatrix K) : Array K :=
  (List.range (pattern Q A A.rowIndex).cols).foldl
    (fun v j => v.setIfInBounds (diagonalSlot (pattern Q A A.rowIndex) j) (if j < A.cols then 1 else -1))
    (pattern Q A A.rowIndex).values

/-- The system before its first update, with the given factors. -/
def start (Q A : SparseMatrix K) (n m : Nat) (factors : Factorization K) : AugmentedSystem K n m where
  matrix := { pattern Q A A.rowIndex with values := initialValues Q A }
  slotOfCost := costPlaces Q A
  slotOfRow := constraintPlaces Q A
  rows := A.rowIndex
  factors := factors
  costDiag := Array.replicate A.cols 0
  active := Vector.replicate m false
  sigma := Vec.zeros m
  rho := 0
  factored := false

/-- The system is made if the pattern can be factored. -/
theorem ofProblem_eq_ok [Elimination.Rule] {S : AugmentedSystem K n m} : ofProblem Q A n m = .ok S ↔
    ∃ F, Factorization.ofMatrix { pattern Q A A.rowIndex with values := initialValues Q A } none 1.0 = .ok F ∧
      start Q A n m F = S := by
  unfold ofProblem
  simp only
  constructor
  · intro h
    split at h
    · cases h
    · next F hF => exact ⟨F, hF, Except.ok.inj h⟩
  · rintro ⟨F, hF, rfl⟩
    split
    · next e he => cases he.symm.trans hF
    · next F' hF' =>
        obtain rfl : F' = F := Except.ok.inj (hF'.symm.trans hF)
        rfl

theorem ofProblem_eq_error [Elimination.Rule] {e : FactorError}
    (h : Factorization.ofMatrix { pattern Q A A.rowIndex with values := initialValues Q A } none 1.0 = .error e) :
    (ofProblem Q A n m : Except NewtonError (AugmentedSystem K n m)) = .error (.factor e) := by
  unfold ofProblem
  simp only
  split
  · next e' he =>
      obtain rfl : e' = e := Except.error.inj (he.symm.trans h)
      rfl
  · next F hF => cases hF.symm.trans h

theorem frame_start (h : NewtonData Q A n m) (F : Factorization K) : Frame Q A (start Q A n m F) := by
  have hpattern := @frame_of_pattern _ _ Q A n m { start Q A n m F with matrix := pattern Q A A.rowIndex }
    h rfl rfl rfl rfl
  refine @Frame.of_same _ Q A n m _ (start Q A n m F) hpattern (initialValues Q A) ?_ rfl rfl rfl rfl
  exact size_foldl_setIfInBounds ..

end AugmentedSystem
end AugLag
