import AugLag.Proofs.Checked.Sparse
import AugLag.Proofs.Factor.Modified
import AugLag.Proofs.Newton.Opened
import AugLag.Proofs.Newton.ReducedAssembly

/-!
# The places of the reduced system

The slots of the pattern are found by searches, and a search that finds nothing would name the first slot of all. None
does: each stored slot is at the place of the data it stands for, in the order in which assembly takes them, and it stays
there through all updates (`places_found`). Nothing here depends on how the scalars calculate.
-/

namespace AugLag.ReducedSystem

open SparseMatrix
open Factorization (Linked)

variable {T : Type} {Q A H : SparseMatrix T} {n m : Nat} {S S₀ : ReducedSystem T n m} {i j k p r : Nat}

/-! ## Searches -/

/-- The search for row `i` of column `j` is inside of the matrix, and what it finds is the slot `p` of this place. -/
structure Finds (H : SparseMatrix T) (i j p : Nat) : Prop where
  row_lt : i < H.rows
  col_lt : j < H.cols
  found : H.findSlot i j = some p
  mem : p ∈ H.slots j
  rowAt_eq : H.rowAt p = i

theorem HasPlace.finds (hplace : HasPlace H i j) (h : WellFormed H) (hj : j < H.cols) :
    Finds H i j (slotAt H (i, j)) where
  row_lt := hplace.row ▸ h.rowAt_lt _ (h.lt_size hj hplace.mem)
  col_lt := hj
  found := (h.findSlot_eq_some hj).mpr ⟨hplace.mem, hplace.row⟩
  mem := hplace.mem
  rowAt_eq := hplace.row

/-- The slots that a system has stored are those of its data, in the order of the loops that use them. -/
structure Located (Q A : SparseMatrix T) (S : ReducedSystem T n m) : Prop where
  formed : WellFormed S.matrix
  size_eq : S.matrix.size = (n, n)
  upper : S.matrix.Upper
  /-- The slots of the rows of `A` by increasing columns, and these columns. -/
  mem_row : ∀ r < m, ∀ k, k ∈ S.rows.row r ↔ k < A.values.size ∧ A.rowAt k = r
  row_ascends : ∀ r < m, ((S.rows.row r).map fun k => S.columnOf.getD k 0).Pairwise (· < ·)
  column : ∀ j < n, ∀ k ∈ A.slots j, S.columnOf[k]? = some j
  cost_size : S.slotOfCost.size = Q.values.size
  cost : ∀ j < n, ∀ k ∈ Q.slots j, ∃ p, S.slotOfCost[k]? = some p ∧ Finds S.matrix (Q.rowAt k) j p
  diagonal_size : S.diagonal.size = n
  diagonal : ∀ j < n, ∃ p, S.diagonal[j]? = some p ∧ Finds S.matrix j j p
  pairs_size : S.slotsOfPairs.size = m
  pairs : ∀ r < m, ∃ slots, S.slotsOfPairs[r]? = some slots ∧
    List.Forall₂ (fun p e => Finds S.matrix (S.columnOf.getD e.1 0) (S.columnOf.getD e.2 0) p) slots
      (orderedPairs (S.rows.row r))
  /-- Each row of `A` can be added to the factors or taken from them. -/
  linked : ∀ r < m, Linked S.matrix ((S.rows.row r).map fun k => S.columnOf.getD k 0).toArray

/-- Slot `k` of the cost is visited as the `k`-th one. -/
theorem getElem?_allSlots (h : NewtonData Q A n m) (hj : j < n) (hk : k ∈ Q.slots j) :
    (allSlots Q n)[k]? = some (j, k) := by
  have hget : ((allSlots Q n).map Prod.snd)[k]? = some k := by
    rw [map_snd_allSlots h, List.getElem?_range (h.cost_lt hj hk)]
  rw [List.getElem?_map, Option.map_eq_some_iff] at hget
  obtain ⟨⟨j', k'⟩, hget, rfl⟩ := hget
  obtain ⟨hj', hk'⟩ := mem_allSlots.mp (List.mem_of_getElem? hget)
  rw [← h.cost_cols] at hj hj'
  rw [hget, h.cost.column_unique hj' hj hk' hk]

/-! ## Systems for the same data -/

variable [Scalar T] {F : Factorization T}

theorem Siblings.size_slotsOfPairs (hs : Siblings (start Q A n m F) S) (h : NewtonData Q A n m) :
    S.slotsOfPairs.size = m := by
  rw [hs.slotsOfPairs, start, Array.size_map, Array.size_range, h.constraint_rows]

/-- A system keeps the slots that were found when it was made. -/
theorem Siblings.located (hs : Siblings (start Q A n m F) S) (h : Frame Q A S) : Located Q A S where
  formed := h.matrix
  size_eq := by
    obtain ⟨values, -, hmatrix⟩ := hs.matrix
    refine Prod.ext ?_ h.matrix_cols
    rw [hmatrix]
    exact h.constraint_cols
  upper := h.matrix_upper
  mem_row r hr k := by
    rw [h.rows_eq]
    exact h.mem_row hr
  row_ascends r hr := by
    rw [h.rows_eq, h.columnOf_eq]
    exact h.row_ascends hr
  column j hj k hk := by
    have hlt := h.constraints.lt_size (h.constraint_cols.symm ▸ hj) hk
    rw [← (Checked.columnOfSlot_eq h.constraints.toLayout).2] at hlt
    rw [h.columnOf_eq, Checked.get_eq hlt 0, (h.mem_row_of_slot hj hk).2.2]
  cost_size := by
    rw [← Array.length_toList, toList_slotOfCost h, List.length_map, length_allSlots h.toNewtonData]
  cost j hj k hk := by
    refine ⟨_, ?_, (h.cost_place j hj k hk).finds h.matrix (h.matrix_cols.symm ▸ hj)⟩
    rw [← Array.getElem?_toList, toList_slotOfCost h, List.getElem?_map, getElem?_allSlots h.toNewtonData hj hk]
    rfl
  diagonal_size := by rw [h.diagonal_eq, Array.size_map, Array.size_range]
  diagonal j hj := by
    refine ⟨_, ?_, (h.diagonal_place j hj).finds h.matrix (h.matrix_cols.symm ▸ hj)⟩
    rw [h.diagonal_eq, Array.getElem?_map, Array.getElem?_range, if_pos hj]
    rfl
  pairs_size := hs.size_slotsOfPairs h.toNewtonData
  pairs r hr := by
    have hlt := hr.trans_eq (hs.size_slotsOfPairs h.toNewtonData).symm
    refine ⟨_, (Checked.get_eq hlt []).trans (congrArg some (h.slotsOfPairs_eq r hr)), ?_⟩
    rw [h.rows_eq, h.columnOf_eq, List.forall₂_map_left_iff, List.forall₂_same]
    intro e he
    have hcol := (h.exists_column hr ((mem_orderedPairs_row h.toNewtonData hr).mp he).2.1).1
    exact (h.pair_place r hr e he).finds h.matrix (h.matrix_cols.symm ▸ hcol)
  linked r hr := by
    intro i hi j hj hij
    rw [h.rows_eq, h.columnOf_eq, List.mem_toArray, List.mem_map] at hi hj
    obtain ⟨k, hk, rfl⟩ := hi
    obtain ⟨k', hk', rfl⟩ := hj
    have hplace := h.row_place hr hk hk' hij.le
    exact ⟨_, hplace.mem, hplace.row⟩

/-! ## All calls -/

/-- A system after any calls, whether they were answered or refused. -/
inductive Called (Q A : SparseMatrix T) {n m : Nat} (S₀ : ReducedSystem T n m) : ReducedSystem T n m → Prop
  | made : Called Q A S₀ S₀
  | updated {S : ReducedSystem T n m} (active : Vector Bool m) (sigma : Vector T m) (rho : T) (c : Settings T) :
      Called Q A S₀ S → Called Q A S₀ (S.update Q A active sigma rho c).1
  | invalidated {S : ReducedSystem T n m} : Called Q A S₀ S → Called Q A S₀ S.invalidate

/-- No call touches the slots. -/
theorem Called.built (hS : Called Q A S₀ S) (h : Built Q A S₀) : Built Q A S ∧ Siblings S₀ S := by
  induction hS with
  | made => exact ⟨h, Siblings.refl S₀⟩
  | updated active sigma rho c _ ih =>
      obtain ⟨hbuilt, hs⟩ := ih.1.update active sigma rho c
      exact ⟨hbuilt, ih.2.trans hs⟩
  | invalidated _ ih =>
      obtain ⟨hbuilt, hs⟩ := ih.1.invalidate
      exact ⟨hbuilt, ih.2.trans hs⟩

theorem ofProblem_eq [Elimination.Rule] (Q A : SparseMatrix T) (n m : Nat) :
    (ofProblem Q A n m : Except NewtonError (ReducedSystem T n m)) =
      ((Factorization.ofMatrix { pattern Q A A.rowIndex A.columnOfSlot with values := initialValues Q A } none 1.0).map
        (start Q A n m)).mapError .factor := by
  cases hF : Factorization.ofMatrix { pattern Q A A.rowIndex A.columnOfSlot with values := initialValues Q A } none 1.0 with
  | error e => exact ofProblem_eq_error hF
  | ok F => exact ofProblem_eq_ok.mpr ⟨F, hF, rfl⟩

/-- All searches for places of the reduced system find what they look for, before the factors of the system are made and
whether this succeeds or not. So the stored slots are at the places of the data, in the order of the data. After any calls
they still are, and assembly adds up in each slot exactly what belongs to its place; where the pattern has no slot, nothing
is missing. -/
theorem places_found [Elimination.Rule] (h : NewtonData Q A n m) :
    (∀ F, Located Q A (start Q A n m F)) ∧
    (ofProblem Q A n m : Except NewtonError (ReducedSystem T n m)) =
      ((Factorization.ofMatrix { pattern Q A A.rowIndex A.columnOfSlot with values := initialValues Q A } none 1.0).map
        (start Q A n m)).mapError .factor ∧
    ∀ S₀ S : ReducedSystem T n m, ofProblem Q A n m = .ok S₀ → Called Q A S₀ S → Located Q A S ∧
      ∀ (active : Vector Bool m) (sigma : Vector T m) (rho : T), ∀ j < n,
        (∀ p ∈ S.matrix.slots j, (S.assemble Q A active sigma rho).getD p 0 =
          (contributions Q A active sigma rho (S.matrix.rowAt p) j).foldl (· + ·) 0) ∧
        ∀ i ≤ j, (∀ p ∈ S.matrix.slots j, S.matrix.rowAt p ≠ i) → contributions Q A active sigma rho i j = [] := by
  refine ⟨fun F => (Siblings.refl _).located (frame_start h F), ofProblem_eq Q A n m, fun S₀ S hS₀ hS => ?_⟩
  obtain ⟨hbuilt, hs⟩ := hS.built (built_of_ofProblem h hS₀)
  obtain ⟨F, -, rfl⟩ := ofProblem_eq_ok.mp hS₀
  have hframe := hbuilt.frame
  exact ⟨hs.located hframe, fun active sigma rho j hj =>
    ⟨fun p hp => getD_assemble hframe hj hp, fun i hij hnone => contributions_eq_nil hframe hij hj hnone⟩⟩

namespace Sample

/-- A cost with one entry, which is off the diagonal. -/
def corner : SparseMatrix ℚ :=
  { rows := 3, cols := 3, colPtr := #[0, 0, 0, 1], rowIdx := #[0], values := #[5] }

/-- A row on the first two variables and one on the last. -/
def blocks : SparseMatrix ℚ :=
  { rows := 2, cols := 3, colPtr := #[0, 1, 2, 3], rowIdx := #[0, 0, 1], values := #[2, 3, 7] }

theorem data : NewtonData corner blocks 3 2 where
  cost := wellFormed_of_check (by decide +kernel)
  upper := show ∀ j < 3, ∀ k ∈ corner.slots j, corner.rowAt k ≤ j by decide +kernel
  cost_cols := rfl
  constraints := wellFormed_of_check (by decide +kernel)
  constraint_cols := rfl
  constraint_rows := rfl

theorem pattern_blocks : pattern corner blocks blocks.rowIndex blocks.columnOfSlot =
    { rows := 3, cols := 3, colPtr := #[0, 1, 3, 5], rowIdx := #[0, 0, 1, 0, 2], values := #[0, 0, 0, 0, 0] } := by
  cbv

theorem ordered_blocks :
    (Elimination.Rule.order (Elimination.graph (pattern corner blocks blocks.rowIndex blocks.columnOfSlot)) 1.0).Perm
      (List.range (pattern corner blocks blocks.rowIndex blocks.columnOfSlot).cols) := by
  rw [pattern_blocks]
  decide +kernel

theorem places_found_blocks :
    NewtonData corner blocks 3 2 ∧
      ∃ S₀ S : ReducedSystem ℚ 3 2, ofProblem corner blocks 3 2 = .ok S₀ ∧ Called corner blocks S₀ S ∧
        (∃ p, S.slotOfCost[0]? = some p ∧ Finds S.matrix 0 2 p) ∧
        ∃ p, S.diagonal[1]? = some p ∧ Finds S.matrix 1 1 p ∧
          (S.assemble corner blocks #v[true, true] #v[1, 1] (1 / 2)).getD p 0 = 1 / 2 + 1 * 3 * 3 := by
  obtain ⟨-, -, hcalled⟩ := places_found data
  obtain ⟨S₀, hS₀⟩ := exists_of_plainZeros data ordered_blocks
  have hS : Called corner blocks S₀ (S₀.update corner blocks #v[true, false] #v[2, 2] 1 Settings.default).1.invalidate :=
    .invalidated (.updated _ _ _ _ .made)
  obtain ⟨hlocated, hsum⟩ := hcalled S₀ _ hS₀ hS
  obtain ⟨p, hp, hfinds⟩ := hlocated.diagonal 1 (by decide)
  refine ⟨data, S₀, _, hS₀, hS, hlocated.cost 2 (by decide) 0 (by decide), p, hp, hfinds, ?_⟩
  rw [(hsum _ _ _ 1 (by decide)).1 p hfinds.mem, hfinds.rowAt_eq]
  decide +kernel

end Sample

end AugLag.ReducedSystem
