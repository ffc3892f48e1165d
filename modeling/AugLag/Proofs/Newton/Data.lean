import AugLag.Proofs.Sparse.CountingSort
import AugLag.Proofs.Sparse.Search

/-!
# The matrices of a program

A program stores the upper triangle of its cost, and constraints in as many variables. The rows of the constraints are
read through an index of their slots by rows. Nothing here depends on how the scalars calculate.
-/

namespace AugLag

open SparseMatrix

variable {T : Type} {Q A : SparseMatrix T} {n m : Nat}

/-- The upper triangle of a symmetric matrix, and rows of constraints in as many variables. -/
structure NewtonData (Q A : SparseMatrix K) (n m : Nat) : Prop where
  cost : WellFormed Q
  upper : Q.Upper
  cost_cols : Q.cols = n
  constraints : WellFormed A
  constraint_cols : A.cols = n
  constraint_rows : A.rows = m

namespace NewtonData

/-- Matrices of the same patterns are data of the same kind. -/
theorem of_samePattern {Q' A' : SparseMatrix T} (h : NewtonData Q A n m) (hQ : SamePattern Q' Q)
    (hA : SamePattern A' A) : NewtonData Q' A' n m where
  cost := hQ.wellFormed h.cost
  upper := hQ.upper h.upper
  cost_cols := hQ.cols_eq.trans h.cost_cols
  constraints := hA.wellFormed h.constraints
  constraint_cols := hA.cols_eq.trans h.constraint_cols
  constraint_rows := hA.rows_eq.trans h.constraint_rows

variable (h : NewtonData Q A n m)

include h

/-! ## The rows of the constraints -/

theorem mem_row {r k : Nat} (hr : r < m) : k ∈ A.rowIndex.row r ↔ k < A.values.size ∧ A.rowAt k = r := by
  rw [h.constraints.row_rowIndex (by rw [h.constraint_rows]; exact hr), List.mem_filter, List.mem_range,
    decide_eq_true_eq]

/-- The slots of a row, each in its column. -/
theorem exists_column {r k : Nat} (hr : r < m) (hk : k ∈ A.rowIndex.row r) :
    A.columnOfSlot.getD k 0 < n ∧ k ∈ A.slots (A.columnOfSlot.getD k 0) ∧ A.rowAt k = r := by
  obtain ⟨hlt, hrow⟩ := (h.mem_row hr).mp hk
  obtain ⟨j, hj, hkj⟩ := h.constraints.exists_column hlt
  rw [h.constraints.columnOf_slot hj hkj]
  exact ⟨h.constraint_cols ▸ hj, hkj, hrow⟩

theorem mem_row_of_slot {j k : Nat} (hj : j < n) (hk : k ∈ A.slots j) :
    A.rowAt k < m ∧ k ∈ A.rowIndex.row (A.rowAt k) ∧ A.columnOfSlot.getD k 0 = j := by
  rw [← h.constraint_cols] at hj
  have hlt := h.constraints.lt_size hj hk
  have hrow : A.rowAt k < m := h.constraint_rows ▸ h.constraints.rowAt_lt k hlt
  exact ⟨hrow, (h.mem_row hrow).mpr ⟨hlt, rfl⟩, h.constraints.columnOf_slot hj hk⟩

/-- The search in a column finds the slot of a row that is in this column. -/
theorem findSlot_eq_some {r j k : Nat} (hr : r < m) (hj : j < n) :
    A.findSlot r j = some k ↔ k ∈ A.rowIndex.row r ∧ A.columnOfSlot.getD k 0 = j := by
  rw [h.constraints.findSlot_eq_some (h.constraint_cols.symm ▸ hj)]
  constructor
  · rintro ⟨hk, rfl⟩
    exact (h.mem_row_of_slot hj hk).2
  · rintro ⟨hk, rfl⟩
    exact (h.exists_column hr hk).2

/-- The slots of a row come by increasing columns. -/
theorem row_ascends {r : Nat} (hr : r < m) :
    ((A.rowIndex.row r).map fun k => A.columnOfSlot.getD k 0).Pairwise (· < ·) := by
  rw [List.pairwise_map]
  have hslots : (A.rowIndex.row r).Pairwise (· < ·) := by
    rw [h.constraints.row_rowIndex (by rw [h.constraint_rows]; exact hr)]
    exact List.pairwise_lt_range.filter _
  refine hslots.imp_of_mem fun {k k'} hk hk' hlt => ?_
  obtain ⟨hj, hkj, hrow⟩ := h.exists_column hr hk
  obtain ⟨hj', hkj', hrow'⟩ := h.exists_column hr hk'
  rw [← h.constraint_cols] at hj hj'
  rcases Nat.lt_trichotomy (A.columnOfSlot.getD k 0) (A.columnOfSlot.getD k' 0) with hcols | heq | hgt
  · exact hcols
  · rw [heq] at hkj
    have := h.constraints.eq_of_rowAt_eq hj' hkj hkj' (hrow.trans hrow'.symm)
    omega
  · have := @Layout.first_mono _ A h.constraints.toLayout (A.columnOfSlot.getD k' 0 + 1) (A.columnOfSlot.getD k 0) hgt hj.le
    rw [first_succ] at this
    rw [mem_slots] at hkj hkj'
    omega

/-! ## The cost -/

theorem cost_lt {j k : Nat} (hj : j < n) (hk : k ∈ Q.slots j) : k < Q.values.size :=
  h.cost.lt_size (by rw [h.cost_cols]; exact hj) hk

theorem cost_row_le {j k : Nat} (hj : j < n) (hk : k ∈ Q.slots j) : Q.rowAt k ≤ j :=
  h.upper j (by rw [h.cost_cols]; exact hj) k hk

theorem exists_cost_column {k : Nat} (hk : k < Q.values.size) : ∃ j < n, k ∈ Q.slots j := by
  obtain ⟨j, hj, hkj⟩ := h.cost.exists_column hk
  exact ⟨j, h.cost_cols ▸ hj, hkj⟩

/-- A slot of the cost is in a row and in a column of the problem. -/
theorem cost_row_lt {j k : Nat} (hj : j < n) (hk : k ∈ Q.slots j) : Q.rowAt k < n :=
  (h.cost_row_le hj hk).trans_lt hj

theorem constraint_row_lt {j k : Nat} (hj : j < n) (hk : k ∈ A.slots j) : A.rowAt k < m :=
  (h.mem_row_of_slot hj hk).1

end NewtonData
end AugLag
