import AugLag.Proofs.Factor.Columns
import AugLag.Proofs.Factor.Definite
import AugLag.Proofs.Newton.Data
import AugLag.Proofs.Sparse.Search

/-!
# The matrix of the Newton step

Both forms of the Newton system stand for one matrix, `Q + ρ I` plus the squares of the active rows of `A` with their
penalties.
-/

namespace AugLag

open SparseMatrix
open scoped Matrix

variable {K : Type} [ExactScalar K] {Q A : SparseMatrix K} {n m : Nat}

/-- The penalty of a row, and zero for a row that is not active. -/
def activePenalty (active : Vector Bool m) (sigma : Vector K m) (r : Fin m) : K :=
  if active.get r then sigma.get r else 0

/-- The cost with its proximal weight. -/
def proximal (Q : SparseMatrix K) (n : Nat) (rho : K) : Matrix (Fin n) (Fin n) K := Q.symMatrix n + rho • 1

/-- The matrix of the Newton step. -/
def hessian (Q A : SparseMatrix K) (n : Nat) (active : Vector Bool m) (sigma : Vector K m) (rho : K) :
    Matrix (Fin n) (Fin n) K :=
  proximal Q n rho + (A.toMatrix m n)ᵀ * Matrix.diagonal (activePenalty active sigma) * A.toMatrix m n

theorem proximal_apply (Q : SparseMatrix K) (rho : K) (i j : Fin n) :
    proximal Q n rho i j = Q.sym i j + if i = j then rho else 0 := by
  have hsym : Q.symMatrix n i j = Q.sym i j := by
    rw [symMatrix, Matrix.of_apply, sym]
    exact if_congr Iff.rfl rfl rfl
  rw [proximal, Matrix.add_apply, hsym, Matrix.smul_apply, Matrix.one_apply, smul_eq_mul, mul_ite, mul_one, mul_zero]

theorem hessian_apply (Q A : SparseMatrix K) (active : Vector Bool m) (sigma : Vector K m) (rho : K) (i j : Fin n) :
    hessian Q A n active sigma rho i j =
      (Q.sym i j + if i = j then rho else 0) + ∑ r, activePenalty active sigma r * (A.entry r i * A.entry r j) := by
  rw [hessian, Matrix.add_apply, proximal_apply, Matrix.mul_apply, add_right_inj]
  refine Finset.sum_congr rfl fun r _ => ?_
  rw [Matrix.mul_diagonal, Matrix.transpose_apply]
  simp only [toMatrix, Matrix.of_apply]
  ring

/-- The entries of the matrix of the Newton step. -/
def hessianTable (Q A : SparseMatrix K) (active : Vector Bool m) (sigma : Vector K m) (rho : K) (i j : Nat) : K :=
  (Q.sym i j + if i = j then rho else 0) + ∑ r, activePenalty active sigma r * (A.entry r i * A.entry r j)

theorem leading_hessianTable (Q A : SparseMatrix K) (active : Vector Bool m) (sigma : Vector K m) (rho : K) :
    leading n (hessianTable Q A active sigma rho) = hessian Q A n active sigma rho := by
  ext i j
  rw [hessian_apply]
  show (Q.sym i j + if (i : Nat) = j then rho else 0) + _ = _
  simp only [Fin.ext_iff]

theorem hessianTable_comm (Q A : SparseMatrix K) (active : Vector Bool m) (sigma : Vector K m) (rho : K) (i j : Nat) :
    hessianTable Q A active sigma rho i j = hessianTable Q A active sigma rho j i := by
  unfold hessianTable
  rw [sym_comm]
  refine congrArg₂ (· + ·) (congrArg _ (if_congr eq_comm rfl rfl)) (Finset.sum_congr rfl fun r _ => ?_)
  ring

namespace NewtonData

variable (h : NewtonData Q A n m)

include h

theorem entry_of_slot {j k : Nat} (hj : j < n) (hk : k ∈ A.slots j) : A.entry (A.rowAt k) j = A.valueAt k :=
  entry_rowAt (h.constraints.nodup_rows (by rw [h.constraint_cols]; exact hj)) hk

/-- An entry of the constraints is stored in its row, or it is zero. -/
theorem entry_cases {r j : Nat} (hj : j < n) :
    (∃ k ∈ A.rowIndex.row r, A.columnOfSlot.getD k 0 = j ∧ A.entry r j = A.valueAt k) ∨
      A.entry r j = 0 ∧ ∀ k ∈ A.slots j, A.rowAt k ≠ r := by
  by_cases hex : ∃ k ∈ A.slots j, A.rowAt k = r
  · obtain ⟨k, hk, rfl⟩ := hex
    obtain ⟨-, hmem, hcol⟩ := h.mem_row_of_slot hj hk
    exact .inl ⟨k, hmem, hcol, h.entry_of_slot hj hk⟩
  · have hnone : ∀ k ∈ A.slots j, A.rowAt k ≠ r := fun k hk heq => hex ⟨k, hk, heq⟩
    exact .inr ⟨entry_eq_zero hnone, hnone⟩

theorem cost_entry {j k : Nat} (hj : j < n) (hk : k ∈ Q.slots j) : Q.entry (Q.rowAt k) j = Q.valueAt k :=
  entry_rowAt (h.cost.nodup_rows (by rw [h.cost_cols]; exact hj)) hk

end NewtonData
end AugLag
