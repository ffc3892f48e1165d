import AugLag.Proofs.Newton.ReducedAssembly

/-!
# The values of the reduced system

Assembly adds each entry of the cost, the proximal weight, and the products of the entries of each active row to their
places. Every place of the matrix of the Newton step is reached.
-/

namespace AugLag.ReducedSystem

open SparseMatrix
open scoped Matrix

variable {K : Type} [ExactScalar K] {Q A : SparseMatrix K} {n m : Nat} {S : ReducedSystem K n m}
variable {active : Vector Bool m} {sigma : Vector K m} {rho : K} {values : Array K}

/-! ## Sums at a place -/

theorem sum_rowPart (h : NewtonData Q A n m) {i j : Nat} (hi : i < n) (hj : j < n) (r : Fin m) :
    (rowPart A sigma i j r).sum = sigma.get r * (A.entry r i * A.entry r j) := by
  rw [← h.constraint_cols] at hi hj
  rw [h.constraints.entry_eq hi, h.constraints.entry_eq hj, rowPart]
  cases A.get r i <;> cases A.get r j <;> simp [mul_assoc]

theorem sum_filter_active (active : Vector Bool m) (sigma : Vector K m) (f : Fin m → K) :
    ((((List.finRange m).filter fun r => active.get r)).map fun r => sigma.get r * f r).sum =
      ∑ r, activePenalty active sigma r * f r := by
  rw [Fin.sum_univ_def]
  induction List.finRange m with
  | nil => rfl
  | cons r l ih =>
      rw [List.map_cons, List.sum_cons, ← ih, activePenalty]
      by_cases hr : active.get r = true
      · rw [List.filter_cons_of_pos hr, if_pos hr, List.map_cons, List.sum_cons]
      · rw [List.filter_cons_of_neg hr, if_neg hr, zero_mul, zero_add]

/-- What is added up at a place is the entry of the matrix of the Newton step. -/
theorem foldl_contributions (h : NewtonData Q A n m) {i j : Nat} (hij : i ≤ j) (hj : j < n) :
    (contributions Q A active sigma rho i j).foldl (· + ·) 0 = hessianTable Q A active sigma rho i j := by
  have hcost : (Q.get i j).toList.sum = Q.sym i j := by
    rw [sym_of_le hij, h.cost.entry_eq (h.cost_cols.symm ▸ hj)]
    cases Q.get i j <;> simp
  have hdiagonal : (if i = j then some rho else none).toList.sum = if i = j then rho else 0 := by
    split_ifs <;> simp
  rw [← List.sum_eq_foldl, contributions, List.sum_append, List.sum_append, hcost, hdiagonal,
    List.flatMap_def, List.sum_flatten, List.map_map, hessianTable, ← sum_filter_active]
  simp only [Function.comp_def, sum_rowPart h (hij.trans_lt hj) hj]

/-! ## The assembly -/

/-- The assembled values are those of the matrix of the Newton step. -/
theorem sym_assemble (h : Frame Q A S) {i j : Nat} (hi : i < n) (hj : j < n) :
    { S.matrix with values := S.assemble Q A active sigma rho }.sym i j = hessianTable Q A active sigma rho i j := by
  have hframe : WellFormed { S.matrix with values := S.assemble Q A active sigma rho } :=
    h.matrix.withValues (size_assemble ..)
  have hupper : ∀ i j, i ≤ j → j < n →
      { S.matrix with values := S.assemble Q A active sigma rho }.sym i j = hessianTable Q A active sigma rho i j := by
    intro i j hij hj
    rw [sym_of_le hij]
    by_cases hex : ∃ p ∈ S.matrix.slots j, S.matrix.rowAt p = i
    · obtain ⟨p, hp, rfl⟩ := hex
      have hnodup := hframe.nodup_rows (show j < S.matrix.cols by rw [h.matrix_cols]; exact hj)
      refine (entry_rowAt hnodup hp).trans ?_
      show (S.assemble Q A active sigma rho).getD p 0 = _
      rw [getD_assemble h hj hp, foldl_contributions h.toNewtonData hij hj]
    · have hnone : ∀ p ∈ S.matrix.slots j, S.matrix.rowAt p ≠ i := fun p hp heq => hex ⟨p, hp, heq⟩
      rw [← foldl_contributions h.toNewtonData hij hj, contributions_eq_nil h hij hj hnone]
      exact entry_eq_zero hnone
  rcases le_total i j with hij | hji
  · exact hupper i j hij hj
  · rw [sym_comm, hessianTable_comm]
    exact hupper j i hji hi

theorem leading_assemble (h : Frame Q A S) :
    leading n { S.matrix with values := S.assemble Q A active sigma rho }.sym = hessian Q A n active sigma rho := by
  rw [← leading_hessianTable]
  ext i k
  exact sym_assemble h i.isLt k.isLt

/-! ## Rows as sparse vectors -/

/-- A row of the constraints as the entries of a sparse vector. -/
theorem sumAt_rowEntries (h : Frame Q A S) {r i : Nat} (hr : r < m) (hi : i < n) :
    sumAt i (S.rowEntries A r) = A.entry r i := by
  rcases @NewtonData.entry_cases _ _ _ _ _ _ h.toNewtonData r i hi with ⟨k, hk, rfl, hentry⟩ | ⟨hzero, hnone⟩
  · have hnodup : ((S.rowEntries A r).map Prod.fst).Nodup := by
      have hcols : (S.rowEntries A r).map Prod.fst = (A.rowIndex.row r).map fun k => A.columnOfSlot.getD k 0 := by
        rw [rowEntries, h.rows_eq, h.columnOf_eq, List.map_map]
        rfl
      rw [hcols]
      exact (h.row_ascends hr).imp fun hlt => hlt.ne
    rw [hentry]
    exact sumAt_eq_of_mem hnodup ((mem_rowEntries h).mpr ⟨k, hk, rfl⟩)
  · rw [hzero]
    refine sumAt_eq_zero fun e he heq => ?_
    obtain ⟨k, hk, rfl⟩ := (mem_rowEntries h).mp he
    obtain ⟨-, hkj, hrow⟩ := h.exists_column hr hk
    exact hnone k (heq ▸ hkj) hrow

end AugLag.ReducedSystem
