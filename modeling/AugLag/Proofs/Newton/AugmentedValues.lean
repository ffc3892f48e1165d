import AugLag.Proofs.Newton.AugmentedWrites
import AugLag.Proofs.Newton.Saddle

/-!
# The values of the augmented system

Each row of the constraints is written into the slots of its own column, so that a change of some rows leaves the
others and the cost alone. Values that hold a state are those of a saddle point matrix, whose condensed form is the
matrix of the Newton step.
-/

namespace AugLag.AugmentedSystem

open SparseMatrix
open scoped Matrix

variable {K : Type} [ExactScalar K] {Q A : SparseMatrix K} {n m : Nat} {S : AugmentedSystem K n m}
variable {active : Vector Bool m} {sigma : Vector K m} {rho : K} {values values' : Array K} {r : Fin m}

/-! ## Values that hold a state -/

/-- The values hold a row of the constraints. -/
structure RowValues (A : SparseMatrix K) (S : AugmentedSystem K n m) (active : Vector Bool m) (sigma : Vector K m)
    (values : Array K) (r : Fin m) : Prop where
  entries : ∀ k ∈ A.rowIndex.row r, values.getD (S.slotOfRow.getD k 0) 0 = if active.get r then A.valueAt k else 0
  diagonal : values.getD (diagonalSlot S.matrix (n + r)) 0 = if active.get r then -(sigma.get r)⁻¹ else -1

/-- The values hold the cost, with a weight on its diagonal. -/
structure CostValues (Q : SparseMatrix K) (S : AugmentedSystem K n m) (rho : K) (values : Array K) : Prop where
  entries : ∀ j < n, ∀ k ∈ Q.slots j, Q.rowAt k ≠ j → values.getD (S.slotOfCost.getD k 0) 0 = Q.valueAt k
  diagonal : ∀ j < n, values.getD (diagonalSlot S.matrix j) 0 = Q.entry j j + rho

/-- The values hold a state of the system. -/
structure Entries (Q A : SparseMatrix K) (S : AugmentedSystem K n m) (active : Vector Bool m) (sigma : Vector K m)
    (rho : K) (values : Array K) : Prop extends CostValues Q S rho values where
  rows : ∀ r, RowValues A S active sigma values r

theorem RowValues.congr (h : Frame Q A S) (hrow : RowValues A S active sigma values r)
    (heq : ∀ p ∈ S.matrix.slots (n + r), values'.getD p 0 = values.getD p 0) :
    RowValues A S active sigma values' r where
  entries k hk := (heq _ (h.row_slot r r.isLt k hk).1).trans (hrow.entries k hk)
  diagonal := (heq _ (h.diagonal_slot (n + r) (by omega)).1).trans hrow.diagonal

theorem CostValues.congr (h : Frame Q A S) (hcost : CostValues Q S rho values)
    (heq : ∀ j < n, ∀ p ∈ S.matrix.slots j, values'.getD p 0 = values.getD p 0) : CostValues Q S rho values' where
  entries j hj k hk hne := (heq j hj _ (h.cost_slot j hj k hk).1).trans (hcost.entries j hj k hk hne)
  diagonal j hj := (heq j hj _ (h.diagonal_slot j (by omega)).1).trans (hcost.diagonal j hj)

/-! ## Writing rows -/

theorem writeRow_spec (h : Frame Q A S) (hs : values.size = S.matrix.values.size) :
    RowValues A S active sigma (S.writeRow A active sigma values r) r where
  entries k hk := by
    have hlt := h.lt_size (by omega) (h.row_slot r r.isLt k hk).1
    rw [writeRow, getD_setIfInBounds_of_ne _ _ _ (h.slotOfRow_ne_diagonal hk).symm, h.rows_eq]
    refine getD_foldl_set_of_mem _ _ _ _ _ (hs ▸ hlt) ⟨k, hk, rfl⟩ fun k' hk' heq => ?_
    rw [h.slotOfRow_inj hk' hk heq]
  diagonal := by
    have hlt := h.lt_size (by omega) (h.diagonal_slot (n + r) (by omega)).1
    rw [writeRow, getD_setIfInBounds_self _ (by rw [size_foldl_setIfInBounds]; exact hs ▸ hlt), Scalar.recip_eq_inv]

theorem writeRows_spec (h : Frame Q A S) (l : List (Fin m)) (hs : values.size = S.matrix.values.size) (hr : r ∈ l) :
    RowValues A S active sigma (l.foldl (S.writeRow A active sigma) values) r := by
  induction l generalizing values with
  | nil => cases hr
  | cons r' l ih =>
      rw [List.foldl_cons]
      by_cases hmem : r ∈ l
      · exact ih ((size_writeRow ..).trans hs) hmem
      · obtain rfl := (List.mem_cons.mp hr).resolve_right hmem
        refine (writeRow_spec h hs).congr h fun p hp => ?_
        refine writeRows_column h l (by omega) (fun r' hr' heq => hmem ?_) hp
        rwa [Fin.ext (Nat.add_left_cancel heq)] at hr'

theorem writeRows_cost (h : Frame Q A S) (l : List (Fin m)) (hcost : CostValues Q S rho values) :
    CostValues Q S rho (l.foldl (S.writeRow A active sigma) values) :=
  hcost.congr h fun _ hj _ hp => writeRows_column h l (by omega) (fun _ _ => by omega) hp

/-! ## All values -/

/-- Without a weight the diagonal holds that of the cost, also where nothing is stored. -/
theorem writeCost_spec (h : Frame Q A S) : CostValues Q S 0 (S.writeCost Q) := by
  have hzip : ∀ e ∈ S.slotOfCost.toList.zip Q.values.toList,
      ∃ k, k < Q.values.size ∧ e.1 = S.slotOfCost.getD k 0 ∧ e.2 = Q.valueAt k := by
    intro e he
    obtain ⟨k, hk, rfl⟩ := List.mem_iff_getElem.mp he
    rw [List.length_zip, Array.length_toList, Array.length_toList, h.size_slotOfCost, min_self] at hk
    have hk' : k < S.slotOfCost.size := by rw [h.size_slotOfCost]; exact hk
    refine ⟨k, hk, ?_, ?_⟩
    · simp [Array.getD_eq_getD_getElem?, hk']
    · simp [valueAt, Array.getD_eq_getD_getElem?, hk]
  -- A slot of the cost is written with its value only.
  have hslot : ∀ j < n, ∀ k ∈ Q.slots j, (S.writeCost Q).getD (S.slotOfCost.getD k 0) 0 = Q.valueAt k := by
    intro j hj k hk
    have hlt := h.lt_size (by omega) (h.cost_slot j hj k hk).1
    refine getD_foldl_set_of_mem _ _ _ _ _ ?_ ⟨_, h.mem_zip_slotOfCost (h.cost_lt hj hk), rfl⟩ fun e he heq => ?_
    · rwa [size_foldl_setIfInBounds]
    · obtain ⟨k', hk', hplace, hvalue⟩ := hzip e he
      rw [hvalue, h.slotOfCost_inj hk' (h.cost_lt hj hk) (hplace.symm.trans heq)]
  refine { entries := fun j hj k hk _ => hslot j hj k hk, diagonal := fun j hj => ?_ }
  rw [add_zero]
  by_cases hex : ∃ k ∈ Q.slots j, Q.rowAt k = j
  · obtain ⟨k, hk, hrow⟩ := hex
    have hentry := h.cost_entry hj hk
    rw [hrow] at hentry
    rw [hentry, ← (h.slotOfCost_eq_diagonal hj hk).mpr hrow]
    exact hslot j hj k hk
  · have hnone : ∀ k ∈ Q.slots j, Q.rowAt k ≠ j := fun k hk heq => hex ⟨k, hk, heq⟩
    have hlt := h.lt_size (by omega) (h.diagonal_slot j (by omega)).1
    rw [entry_eq_zero hnone, writeCost, getD_foldl_set_of_forall_ne]
    · refine getD_foldl_set_of_mem _ _ _ _ _ hlt ⟨j, List.mem_range.mpr hj, rfl⟩ fun _ _ _ => rfl
    · intro e he heq
      obtain ⟨k, hk, hplace, -⟩ := hzip e he
      obtain ⟨j', hj', hkj'⟩ := h.exists_cost_column hk
      have hmem' := (h.cost_slot j' hj' k hkj').1
      rw [hplace] at heq
      rw [heq] at hmem'
      obtain rfl := h.column_unique (by omega) (by omega) hmem' (h.diagonal_slot j (by omega)).1
      exact hnone k hkj' ((h.slotOfCost_eq_diagonal hj hkj').mp heq)

/-- Adding a weight to the diagonal of the cost. -/
theorem addDiagonal_spec (h : Frame Q A S) (hs : values.size = S.matrix.values.size) (hcost : CostValues Q S 0 values) :
    CostValues Q S rho ((List.range n).foldl (fun v j => v.modify (diagonalSlot S.matrix j) (· + rho)) values) where
  entries j hj k hk hne := by
    have hlt := h.lt_size (by omega) (h.cost_slot j hj k hk).1
    have hdiag : ¬S.slotOfCost.getD k 0 = diagonalSlot S.matrix j := fun heq =>
      hne ((h.slotOfCost_eq_diagonal hj hk).mp heq)
    rw [getD_foldl_modify (List.range n) (diagonalSlot S.matrix) (fun _ x => x + rho) values (hs ▸ hlt),
      filter_diagonal h hj (h.cost_slot j hj k hk).1, if_neg hdiag]
    exact hcost.entries j hj k hk hne
  diagonal j hj := by
    have hlt := h.lt_size (by omega) (h.diagonal_slot j (by omega)).1
    rw [getD_foldl_modify (List.range n) (diagonalSlot S.matrix) (fun _ x => x + rho) values (hs ▸ hlt),
      filter_diagonal h hj (h.diagonal_slot j (by omega)).1, if_pos rfl, List.foldl_cons, List.foldl_nil,
      hcost.diagonal j hj, add_zero]

/-- Assembly from whatever values were there before. -/
theorem assemble_spec (h : Frame Q A S) :
    Entries Q A S active sigma rho (S.assemble Q A active sigma rho).1 ∧
      ∀ j < n, (S.assemble Q A active sigma rho).2.getD j 0 = Q.entry j j := by
  have hcost := writeCost_spec h
  have hshifted := @addDiagonal_spec _ _ _ _ _ _ _ rho _ h (size_writeCost S Q) hcost
  simp only [assemble]
  refine ⟨{ writeRows_cost h _ hshifted with rows := fun r => ?_ }, fun j hj => ?_⟩
  · refine writeRows_spec h _ ?_ (List.mem_finRange r)
    rw [size_foldl_modify _ (diagonalSlot S.matrix) fun _ x => x + rho, size_writeCost]
  · have hdiag := hcost.diagonal j hj
    rw [add_zero] at hdiag
    rw [← hdiag]
    simp [Array.getD_eq_getD_getElem?, hj]

/-! ## Values made from those of another state -/

/-- A row that is not written differently holds the new state already. -/
theorem RowValues.of_unchanged (hrow : RowValues A S S.active S.sigma values r)
    (hr : ¬S.rowChanged active sigma r = true) : RowValues A S active sigma values r := by
  have hactive : active.get r = S.active.get r := by
    by_contra hne
    exact hr (by simp [rowChanged, hne])
  have hsigma : active.get r = true → sigma.get r = S.sigma.get r := by
    intro ha
    by_contra hne
    exact hr (by simp [rowChanged, ha, hne])
  refine { entries := fun k hk => ?_, diagonal := ?_ }
  · rw [hrow.entries k hk, hactive]
  · rw [hrow.diagonal, hactive]
    by_cases ha : S.active.get r = true
    · rw [if_pos ha, if_pos ha, hsigma (hactive.trans ha)]
    · rw [if_neg ha, if_neg ha]

theorem shifted_spec (h : Frame Q A S) (he : Entries Q A S S.active S.sigma S.rho S.matrix.values)
    (hdiag : ∀ j < n, S.costDiag.getD j 0 = Q.entry j j) :
    Entries Q A S S.active S.sigma rho (S.shifted rho) where
  entries j hj k hk hne := by
    rw [shifted_of_ne]
    · exact he.entries j hj k hk hne
    · intro i hi heq
      obtain rfl := h.eq_of_diagonalSlot_eq (by omega) (by omega) (h.cost_slot j hj k hk).1 heq
      exact hne ((h.slotOfCost_eq_diagonal hj hk).mp heq.symm)
  diagonal j hj := by
    by_cases hrho : (rho == S.rho) = true
    · rw [shifted, if_pos hrho, eq_of_beq hrho]
      exact he.diagonal j hj
    · rw [shifted_diagonal h hj hrho, hdiag j hj]
  rows r := by
    refine (he.rows r).congr h fun p hp => shifted_of_ne fun j hj heq => ?_
    have := h.eq_of_diagonalSlot_eq (by omega) (by omega) hp heq
    omega

/-- Only the slots that are listed change, and afterwards the values hold the new state. -/
theorem reassemble_spec (h : Frame Q A S) (he : Entries Q A S S.active S.sigma S.rho S.matrix.values)
    (hdiag : ∀ j < n, S.costDiag.getD j 0 = Q.entry j j) {slots : List Nat}
    (heq : S.reassemble A active sigma rho = (values, slots)) :
    values.size = S.matrix.values.size ∧ Entries Q A S active sigma rho values ∧
      (∀ p ∈ slots, p < S.matrix.values.size) ∧ ∀ p, p ∉ slots → values.getD p 0 = S.matrix.values.getD p 0 := by
  obtain ⟨rfl, rfl⟩ := Prod.mk.inj heq
  have hshifted := @shifted_spec _ _ _ _ _ _ _ rho h he hdiag
  have hmem : ∀ r, r ∈ (List.finRange m).filter (S.rowChanged active sigma) ↔ S.rowChanged active sigma r = true :=
    fun r => by simp
  refine ⟨?_, { writeRows_cost h _ hshifted.toCostValues with rows := fun r => ?_ }, fun p hp => ?_, fun p hp => ?_⟩
  · exact (size_writeRows ..).trans (size_shifted S rho)
  · by_cases hr : S.rowChanged active sigma r = true
    · exact writeRows_spec h _ (size_shifted S rho) ((hmem r).mpr hr)
    · refine ((hshifted.rows r).of_unchanged hr).congr h fun p hp => ?_
      refine writeRows_column h _ (by omega) (fun r' hr' heq => hr ?_) hp
      rw [← Fin.ext (Nat.add_left_cancel heq)]
      exact (hmem r').mp hr'
  · exact reassemble_slot_lt h hp
  · exact reassemble_of_notMem h hp

/-! ## The saddle point matrix -/

namespace Frame

variable (h : Frame Q A S)

include h

/-! ### The entries at the places of the data -/

omit [ExactScalar K] in
theorem nodup_rows {j : Nat} (hj : j < n + m) : ((S.matrix.slots j).map S.matrix.rowAt).Nodup :=
  h.matrix.nodup_rows (by rw [h.matrix_cols]; exact hj)

theorem entry_diagonal {j : Nat} (hj : j < n + m) : S.matrix.entry j j = S.matrix.valueAt (diagonalSlot S.matrix j) := by
  obtain ⟨hmem, hrow⟩ := h.diagonal_slot j hj
  have hentry := entry_rowAt (h.nodup_rows hj) hmem
  rwa [hrow] at hentry

theorem entry_cost {j k : Nat} (hj : j < n) (hk : k ∈ Q.slots j) :
    S.matrix.entry (Q.rowAt k) j = S.matrix.valueAt (S.slotOfCost.getD k 0) := by
  obtain ⟨hmem, hplace⟩ := h.cost_slot j hj k hk
  have hentry := entry_rowAt (h.nodup_rows (by omega)) hmem
  rwa [hplace] at hentry

theorem entry_cost_eq_zero {i j : Nat} (hj : j < n) (hij : i ≠ j) (hnone : ∀ k ∈ Q.slots j, Q.rowAt k ≠ i) :
    S.matrix.entry i j = 0 := by
  refine entry_eq_zero fun p hp heq => ?_
  rcases h.cost_cases j hj p hp with rfl | ⟨k, hk, rfl⟩
  · exact hij (heq.symm.trans (h.diagonal_slot j (by omega)).2)
  · exact hnone k hk ((h.cost_slot j hj k hk).2.symm.trans heq)

/-- Row `r` of the constraints is stored in column `n + r`. -/
theorem entry_row {j k : Nat} (hj : j < n) (hk : k ∈ A.slots j) :
    S.matrix.entry j (n + A.rowAt k) = S.matrix.valueAt (S.slotOfRow.getD k 0) := by
  obtain ⟨hr, hmemRow, hcol⟩ := h.mem_row_of_slot hj hk
  obtain ⟨hmem, hplace⟩ := h.row_slot (A.rowAt k) hr k hmemRow
  have hentry := entry_rowAt (h.nodup_rows (by omega)) hmem
  rwa [hplace, hcol] at hentry

theorem entry_row_eq_zero {i r : Nat} (hi : i < n) (hr : r < m) (hnone : ∀ k ∈ A.slots i, A.rowAt k ≠ r) :
    S.matrix.entry i (n + r) = 0 := by
  refine entry_eq_zero fun p hp heq => ?_
  rcases h.row_cases r hr p hp with rfl | ⟨k, hk, rfl⟩
  · rw [(h.diagonal_slot (n + r) (by omega)).2] at heq
    omega
  · obtain ⟨-, hkj, hkr⟩ := h.exists_column hr hk
    rw [(h.row_slot r hr k hk).2] at heq
    exact hnone k (heq ▸ hkj) hkr

theorem entry_rows_eq_zero {r s : Nat} (hs : s < m) (hrs : r ≠ s) : S.matrix.entry (n + r) (n + s) = 0 := by
  refine entry_eq_zero fun p hp heq => ?_
  rcases h.row_cases s hs p hp with rfl | ⟨k, hk, rfl⟩
  · rw [(h.diagonal_slot (n + s) (by omega)).2] at heq
    omega
  · rw [(h.row_slot s hs k hk).2] at heq
    have := (h.exists_column hs hk).1
    omega

end Frame

section Blocks

variable {P : Matrix (Fin n) (Fin n) K} {B : Matrix (Fin m) (Fin n) K} {W : Fin m → K}

/-- Values at the places of the data are those of a matrix of blocks. -/
theorem Frame.saddle (h : Frame Q A S) (hsym : ∀ i j, P i j = P j i)
    (hdiag : ∀ j : Fin n, S.matrix.valueAt (diagonalSlot S.matrix j) = P j j)
    (hcost : ∀ i j : Fin n, i < j → ∀ k ∈ Q.slots j, Q.rowAt k = i → S.matrix.valueAt (S.slotOfCost.getD k 0) = P i j)
    (hcost' : ∀ i j : Fin n, i < j → (∀ k ∈ Q.slots j, Q.rowAt k ≠ i) → P i j = 0)
    (hrow : ∀ (r : Fin m) (j : Fin n), ∀ k ∈ A.slots j, A.rowAt k = r →
      S.matrix.valueAt (S.slotOfRow.getD k 0) = B r j)
    (hrow' : ∀ (r : Fin m) (j : Fin n), (∀ k ∈ A.slots j, A.rowAt k ≠ r) → B r j = 0)
    (hrowDiag : ∀ r : Fin m, S.matrix.valueAt (diagonalSlot S.matrix (n + r)) = -W r) :
    Saddle S.matrix.sym P B W := by
  have hupper : ∀ i j : Fin n, i < j → S.matrix.sym i j = P i j := by
    intro i j hij
    rw [sym_of_le (show (i : Nat) < j from hij).le]
    by_cases hex : ∃ k ∈ Q.slots j, Q.rowAt k = i
    · obtain ⟨k, hk, hki⟩ := hex
      rw [← hcost i j hij k hk hki, ← h.entry_cost j.isLt hk, hki]
    · have hnone : ∀ k ∈ Q.slots j, Q.rowAt k ≠ i := fun k hk heq => hex ⟨k, hk, heq⟩
      rw [hcost' i j hij hnone, h.entry_cost_eq_zero j.isLt (show (i : Nat) < j from hij).ne hnone]
  have hcolumn : ∀ (i : Fin n) (r : Fin m), S.matrix.sym i (n + r) = B r i := by
    intro i r
    rw [sym_of_le (by omega)]
    by_cases hex : ∃ k ∈ A.slots i, A.rowAt k = r
    · obtain ⟨k, hk, hkr⟩ := hex
      rw [← hrow r i k hk hkr, ← h.entry_row i.isLt hk, hkr]
    · have hnone : ∀ k ∈ A.slots i, A.rowAt k ≠ r := fun k hk heq => hex ⟨k, hk, heq⟩
      rw [hrow' r i hnone, h.entry_row_eq_zero i.isLt r.isLt hnone]
  have hzero : ∀ r s : Fin m, r < s → S.matrix.sym (n + r) (n + s) = 0 := by
    intro r s hrs
    rw [sym_of_le (Nat.add_le_add_left (show (r : Nat) < s from hrs).le n)]
    exact h.entry_rows_eq_zero s.isLt (show (r : Nat) < s from hrs).ne
  refine { cost := fun i j => ?_, column := hcolumn, row := fun r i => ?_, diag := fun r s => ?_ }
  · rcases lt_trichotomy i j with hlt | rfl | hgt
    · exact hupper i j hlt
    · rw [sym_of_le le_rfl, h.entry_diagonal (by omega), hdiag]
    · rw [sym_comm, hsym]
      exact hupper j i hgt
  · rw [sym_comm]
    exact hcolumn i r
  · rcases lt_trichotomy r s with hlt | rfl | hgt
    · rw [if_neg hlt.ne, hzero r s hlt]
    · rw [if_pos rfl, sym_of_le le_rfl, h.entry_diagonal (by omega), hrowDiag]
    · rw [if_neg hgt.ne', sym_comm, hzero s r hgt]

end Blocks

/-- The rows of the active constraints. The other rows are zero. -/
def activeRows (A : SparseMatrix K) (n : Nat) (active : Vector Bool m) : Matrix (Fin m) (Fin n) K :=
  .of fun r i => if active.get r then A.entry r i else 0

/-- The inverse penalties of the active constraints. The other rows have a one. -/
def activeWeights (active : Vector Bool m) (sigma : Vector K m) (r : Fin m) : K :=
  if active.get r then (sigma.get r)⁻¹ else 1

theorem Entries.saddle (h : Frame Q A S) (he : Entries Q A S active sigma rho S.matrix.values) :
    Saddle S.matrix.sym (proximal Q n rho) (activeRows A n active) (activeWeights active sigma) := by
  have hproximal : ∀ i j : Fin n, i < j → proximal Q n rho i j = Q.entry i j := by
    intro i j hij
    rw [proximal_apply, if_neg hij.ne, add_zero]
    exact sym_of_le hij.le
  refine h.saddle (fun i j => ?_) (fun j => ?_) (fun i j hij k hk hki => ?_) (fun i j hij hnone => ?_)
    (fun r j k hk hkr => ?_) (fun r j hnone => ?_) fun r => ?_
  · rw [proximal_apply, proximal_apply, sym_comm]
    exact congrArg _ (if_congr eq_comm rfl rfl)
  · rw [proximal_apply, if_pos rfl, sym_of_le le_rfl]
    exact he.diagonal j j.isLt
  · have hentry := h.cost_entry j.isLt hk
    rw [hki] at hentry
    rw [hproximal i j hij, hentry]
    refine he.entries j j.isLt k hk ?_
    rw [hki]
    exact (show (i : Nat) < j from hij).ne
  · rw [hproximal i j hij]
    exact entry_eq_zero hnone
  · obtain ⟨-, hmem, -⟩ := h.mem_row_of_slot j.isLt hk
    rw [hkr] at hmem
    have hentry := h.entry_of_slot j.isLt hk
    rw [hkr] at hentry
    rw [activeRows, Matrix.of_apply, hentry]
    exact (he.rows r).entries k hmem
  · rw [activeRows, Matrix.of_apply, entry_eq_zero hnone, ite_self]
  · refine ((he.rows r).diagonal).trans ?_
    rw [activeWeights, neg_ite]

/-- The condensed form of the system is the matrix of the Newton step. -/
theorem condensed_eq_hessian (Q A : SparseMatrix K) (active : Vector Bool m) (sigma : Vector K m) (rho : K) :
    condensed (proximal Q n rho) (activeRows A n active) (activeWeights active sigma) =
      hessian Q A n active sigma rho := by
  ext i j
  rw [hessian_apply, condensed, Matrix.add_apply, proximal_apply, Matrix.mul_apply, add_right_inj]
  refine Finset.sum_congr rfl fun r _ => ?_
  rw [Matrix.mul_diagonal, Matrix.transpose_apply]
  simp only [activeRows, activeWeights, activePenalty, Matrix.of_apply]
  by_cases hr : active.get r = true
  · simp only [if_pos hr, inv_inv]
    ring
  · simp only [if_neg hr, zero_mul, mul_zero]

theorem activeWeights_pos (hsigma : ∀ r, 0 < sigma.get r) (r : Fin m) : 0 < activeWeights active sigma r := by
  unfold activeWeights
  by_cases hr : active.get r = true
  · rw [if_pos hr]
    exact inv_pos.mpr (hsigma r)
  · rw [if_neg hr]
    exact one_pos

end AugLag.AugmentedSystem
