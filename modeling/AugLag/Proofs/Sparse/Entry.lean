import AugLag.Proofs.Exact.Vector
import AugLag.Proofs.Sparse.Pattern
import AugLag.Sparse.Search

/-!
# The matrix that a sparse matrix stands for

The entry at a place is the sum of the values stored there. Operations on sparse matrices are described by
what they do to the entries.
-/

namespace AugLag.SparseMatrix

variable {K : Type} [ExactScalar K]

/-- The sum of the values that a list of entries holds for one row. -/
def sumAt (i : Nat) (entries : List (Nat × K)) : K := ((entries.filter fun e => e.1 = i).map Prod.snd).sum

@[simp] theorem sumAt_nil (i : Nat) : sumAt i ([] : List (Nat × K)) = 0 := rfl

theorem sumAt_cons (i : Nat) (e : Nat × K) (entries : List (Nat × K)) :
    sumAt i (e :: entries) = (if e.1 = i then e.2 else 0) + sumAt i entries := by
  by_cases h : e.1 = i <;> simp [sumAt, h]

theorem sumAt_append (i : Nat) (l₁ l₂ : List (Nat × K)) : sumAt i (l₁ ++ l₂) = sumAt i l₁ + sumAt i l₂ := by
  simp [sumAt]

theorem sumAt_eq_zero {i : Nat} {entries : List (Nat × K)} (h : ∀ e ∈ entries, e.1 ≠ i) :
    sumAt i entries = 0 := by
  have hnone : entries.filter (fun e => e.1 = i) = [] :=
    List.filter_eq_nil_iff.mpr fun e he => by simpa using h e he
  rw [sumAt, hnone, List.map_nil, List.sum_nil]

/-- Where no two entries share a row, the sum is the one value stored. -/
theorem sumAt_eq_of_mem {entries : List (Nat × K)} (hd : (entries.map Prod.fst).Nodup) {e : Nat × K}
    (he : e ∈ entries) : sumAt e.1 entries = e.2 := by
  induction entries with
  | nil => cases he
  | cons e' entries ih =>
      rw [List.map_cons, List.nodup_cons] at hd
      rw [sumAt_cons]
      rcases List.mem_cons.mp he with rfl | hmem
      · have hrest : sumAt e.1 entries = 0 := by
          refine sumAt_eq_zero fun e'' he'' heq => hd.1 ?_
          rw [← heq]
          exact List.mem_map_of_mem he''
        rw [if_pos rfl, hrest, add_zero]
      · have hne : e'.1 ≠ e.1 := fun heq => hd.1 (heq ▸ List.mem_map_of_mem hmem)
        rw [if_neg hne, zero_add, ih hd.2 hmem]

/-- Values that are scaled by a factor for their row. -/
theorem sumAt_map_mul (i : Nat) (entries : List (Nat × K)) (c : Nat → K) :
    sumAt i (entries.map fun e => (e.1, e.2 * c e.1)) = sumAt i entries * c i := by
  induction entries with
  | nil => simp
  | cons e entries ih =>
      rw [List.map_cons, sumAt_cons, sumAt_cons, ih, add_mul]
      by_cases h : e.1 = i <;> simp [h]

/-- The number in row `i` of column `j`. -/
def entry (M : SparseMatrix K) (i j : Nat) : K := sumAt i (M.column j)

/-- A sparse matrix with `m` rows and `n` columns. -/
def toMatrix (M : SparseMatrix K) (m n : Nat) : Matrix (Fin m) (Fin n) K := .of fun i j => M.entry i j

/-- The symmetric matrix of which the upper triangle is stored. -/
def symMatrix (M : SparseMatrix K) (n : Nat) : Matrix (Fin n) (Fin n) K :=
  .of fun i j => if i ≤ j then M.entry i j else M.entry j i

theorem entry_eq_zero {M : SparseMatrix K} {i j : Nat} (h : ∀ k ∈ M.slots j, M.rowAt k ≠ i) : M.entry i j = 0 := by
  refine sumAt_eq_zero fun e he => ?_
  obtain ⟨k, hk, rfl⟩ := List.mem_map.mp he
  exact h k hk

theorem entry_rowAt {M : SparseMatrix K} {j k : Nat} (hd : ((M.slots j).map M.rowAt).Nodup) (hk : k ∈ M.slots j) :
    M.entry (M.rowAt k) j = M.valueAt k := by
  rw [← map_fst_column] at hd
  exact sumAt_eq_of_mem hd (List.mem_map_of_mem (f := fun k => (M.rowAt k, M.valueAt k)) hk)

theorem WellFormed.nodup_rows {T : Type} {M : SparseMatrix T} (h : WellFormed M) {j : Nat} (hj : j < M.cols) :
    ((M.slots j).map M.rowAt).Nodup :=
  h.distinct.nodup_rows j hj

theorem Upper.entry_eq_zero {M : SparseMatrix K} (h : Upper M) {i j : Nat} (hj : j < M.cols) (hij : j < i) :
    M.entry i j = 0 :=
  SparseMatrix.entry_eq_zero fun k hk heq => absurd (h j hj k hk) (by omega)

theorem entry_ofColumns {rows : Nat} {columns : List (List (Nat × K))} {i j : Nat} (hj : j < columns.length) :
    (ofColumns rows columns).entry i j = sumAt i columns[j] := by
  rw [entry, column_ofColumns hj]

/-- The values of a pattern times a factor for each row. -/
theorem SamePattern.entry_eq {M N : SparseMatrix K} (h : SamePattern M N) {j : Nat} {c : Nat → K}
    (hvalues : ∀ k ∈ N.slots j, M.valueAt k = N.valueAt k * c (N.rowAt k)) (i : Nat) :
    M.entry i j = N.entry i j * c i := by
  have hcol : M.column j = (N.column j).map fun e => (e.1, e.2 * c e.1) := by
    rw [column, column, List.map_map, h.slots_eq]
    refine List.map_congr_left fun k hk => ?_
    rw [h.rowAt_eq, hvalues k hk]
    rfl
  rw [entry, hcol, entry]
  exact sumAt_map_mul i (N.column j) c

/-! ## The zero matrix -/

@[simp] theorem entry_zeros (rows cols i j : Nat) : (zeros rows cols : SparseMatrix K).entry i j = 0 := by
  refine entry_eq_zero fun k hk => ?_
  rw [slots_zeros] at hk
  cases hk

/-! ## Scaling -/

theorem valueAt_scale (A : SparseMatrix K) (c : K) (k : Nat) : (A.scale c).valueAt k = A.valueAt k * c := by
  by_cases hk : k < A.values.size
  · simp [valueAt, scale, Array.getD_eq_getD_getElem?, hk]
  · simp [valueAt, scale, Array.getD_eq_getD_getElem?, hk]

end AugLag.SparseMatrix
