import AugLag.Proofs.Factor.Numeric
import AugLag.Proofs.Factor.Permute
import AugLag.Proofs.Sparse.Product
import AugLag.Factor.Solve

/-!
# Solution with the factors

Forward substitution scatters each unknown as soon as it is known, and backward substitution gathers. An unknown is
not changed any more once its column has been used. Together they solve the system with the matrix that was factored.
-/

namespace AugLag.Factorization

open SparseMatrix
open scoped Matrix

variable {K : Type} [ExactScalar K]

/-- The first numbers of an array. -/
def values (N : Nat) (x : Array K) : Fin N → K := fun i => x.getD i 0

/-- The numbers of a product with a column, gathered from an array. -/
theorem foldl_gather (entries : List (Nat × K)) (x : Array K) :
    entries.foldl (fun s e => s + e.2 * x.getD e.1 0) 0 = ∑ i ∈ Finset.range x.size, sumAt i entries * x.getD i 0 := by
  have hsum := sum_map_get entries (⟨x, rfl⟩ : Vector K x.size)
  rw [foldl_add_eq_sum, zero_add, Finset.sum_range]
  refine hsum.trans (Finset.sum_congr rfl fun i _ => ?_)
  rw [← Vec.get_eq_of_lt]
  rfl

section Triangular

variable {L : SparseMatrix K} (hL : ∀ i c, i ≤ c → L.entry i c = 0)

include hL

theorem foldl_solveLower (b : Array K) (k : Nat) :
    let x := (List.range k).foldl (fun x j =>
      let xj := x.getD j 0
      (L.column j).foldl (fun x e => x.modify e.1 (· - e.2 * xj)) x) b
    x.size = b.size ∧
      ∀ i < b.size, x.getD i 0 = b.getD i 0 - ∑ t ∈ Finset.range k, L.entry i t * x.getD t 0 := by
  induction k with
  | zero => exact ⟨rfl, fun i _ => by simp⟩
  | succ k ih =>
      rw [List.range_succ, List.foldl_append, List.foldl_cons, List.foldl_nil]
      generalize (List.range k).foldl (fun x j =>
        let xj := x.getD j 0
        (L.column j).foldl (fun x e => x.modify e.1 (· - e.2 * xj)) x) b = x at ih ⊢
      obtain ⟨hsize, hx⟩ := ih
      intro x'
      have hsize' : x'.size = b.size := (size_foldl_modify ..).trans hsize
      have hval : ∀ i < b.size, x'.getD i 0 = x.getD i 0 - L.entry i k * x.getD k 0 := by
        intro i hi
        exact getD_foldl_sub _ _ _ (by rw [hsize]; exact hi)
      -- The unknowns up to `k` are final, since the factor has no entries on or above its diagonal.
      have hfinal : ∀ t ≤ k, x'.getD t 0 = x.getD t 0 := by
        intro t ht
        by_cases htb : t < b.size
        · rw [hval t htb, hL t k ht, zero_mul, sub_zero]
        · rw [getD_of_size_le _ (by omega), getD_of_size_le _ (by omega)]
      refine ⟨hsize', fun i hi => ?_⟩
      rw [Finset.sum_range_succ, hfinal k le_rfl, hval i hi, hx i hi, ← sub_sub]
      refine congrArg (· - _) (congrArg (_ - ·) (Finset.sum_congr rfl fun t ht => ?_))
      rw [hfinal t (Finset.mem_range.mp ht).le]

/-- Forward substitution solves the system with a unit diagonal. -/
theorem solveLower_spec (b : Array K) :
    (solveLower L b).size = b.size ∧ ∀ i < b.size,
      (solveLower L b).getD i 0 + ∑ t ∈ Finset.range b.size, L.entry i t * (solveLower L b).getD t 0 = b.getD i 0 := by
  obtain ⟨hsize, hx⟩ := foldl_solveLower hL b b.size
  refine ⟨hsize, fun i hi => ?_⟩
  have hrow := hx i hi
  rw [eq_sub_iff_add_eq] at hrow
  exact hrow

theorem foldl_solveUpper (b : Array K) (k : Nat) {x : Array K} (hsize : x.size = b.size) (hkb : k ≤ b.size)
    (hbelow : ∀ i < k, x.getD i 0 = b.getD i 0)
    (habove : ∀ i, k ≤ i → i < b.size →
      x.getD i 0 + ∑ t ∈ Finset.range b.size, L.entry t i * x.getD t 0 = b.getD i 0) :
    let x' := (List.range k).reverse.foldl (fun x j =>
      let s := (L.column j).foldl (fun s e => s + e.2 * x.getD e.1 0) 0
      x.modify j (· - s)) x
    x'.size = b.size ∧ ∀ i < b.size,
      x'.getD i 0 + ∑ t ∈ Finset.range b.size, L.entry t i * x'.getD t 0 = b.getD i 0 := by
  induction k generalizing x with
  | zero => exact ⟨hsize, fun i hi => habove i (Nat.zero_le i) hi⟩
  | succ k ih =>
      rw [List.range_succ, List.reverse_append, List.reverse_singleton, List.singleton_append, List.foldl_cons]
      refine ih (by rw [Array.size_modify, hsize]) (by omega) (fun i hi => ?_) fun i hki hi => ?_
      · rw [getD_modify_of_ne _ _ _ (by omega)]
        exact hbelow i (by omega)
      · have hother : ∀ t, t ≠ k → (x.modify k (· -
            (L.column k).foldl (fun s e => s + e.2 * x.getD e.1 0) 0)).getD t 0 = x.getD t 0 :=
          fun t ht => getD_modify_of_ne _ _ _ ht.symm
        -- Unknown `k` does not occur in the equations of the later unknowns, nor in its own sum.
        have hsum : ∀ i, k ≤ i → ∑ t ∈ Finset.range b.size, L.entry t i * (x.modify k (· -
            (L.column k).foldl (fun s e => s + e.2 * x.getD e.1 0) 0)).getD t 0 =
              ∑ t ∈ Finset.range b.size, L.entry t i * x.getD t 0 := by
          intro i hi
          refine Finset.sum_congr rfl fun t _ => ?_
          by_cases htk : t = k
          · rw [htk, hL k i hi, zero_mul, zero_mul]
          · rw [hother t htk]
        rw [hsum i hki]
        rcases hki.eq_or_lt with rfl | hlt
        · rw [getD_modify_self _ (by rw [hsize]; exact hi), foldl_gather, hsize, hbelow k (by omega)]
          exact sub_add_cancel _ _
        · rw [hother i hlt.ne']
          exact habove i hlt hi

/-- Backward substitution solves the transposed system. -/
theorem solveUpper_spec (b : Array K) :
    (solveUpper L b).size = b.size ∧ ∀ i < b.size,
      (solveUpper L b).getD i 0 + ∑ t ∈ Finset.range b.size, L.entry t i * (solveUpper L b).getD t 0 = b.getD i 0 :=
  foldl_solveUpper hL b b.size rfl le_rfl (fun _ _ => rfl) fun _ hi hib => absurd hib (not_lt.mpr hi)

/-- A sum with the unit diagonal written out. -/
theorem sum_unit_row (x : Nat → K) {N i : Nat} (hi : i < N) :
    ∑ t ∈ Finset.range N, L.unit i t * x t = x i + ∑ t ∈ Finset.range N, L.entry i t * x t := by
  have hterm : ∀ t ∈ Finset.range N, L.unit i t * x t = (if t = i then x i else 0) + L.entry i t * x t := by
    intro t _
    unfold unit
    by_cases hti : t = i
    · subst hti
      rw [if_pos rfl, if_pos rfl, hL t t le_rfl, one_mul, zero_mul, add_zero]
    · rw [if_neg (Ne.symm hti), if_neg hti, zero_add]
  rw [Finset.sum_congr rfl hterm, Finset.sum_add_distrib, Finset.sum_ite_eq', if_pos (Finset.mem_range.mpr hi)]

theorem sum_unit_column (x : Nat → K) {N i : Nat} (hi : i < N) :
    ∑ t ∈ Finset.range N, L.unit t i * x t = x i + ∑ t ∈ Finset.range N, L.entry t i * x t := by
  have hterm : ∀ t ∈ Finset.range N, L.unit t i * x t = (if t = i then x i else 0) + L.entry t i * x t := by
    intro t _
    unfold unit
    by_cases hti : t = i
    · subst hti
      rw [if_pos rfl, if_pos rfl, hL t t le_rfl, one_mul, zero_mul, add_zero]
    · rw [if_neg hti, if_neg hti, zero_add]
  rw [Finset.sum_congr rfl hterm, Finset.sum_add_distrib, Finset.sum_ite_eq', if_pos (Finset.mem_range.mpr hi)]

end Triangular

variable {F : Factorization K} {a : Nat → Nat → K}

theorem Factors.mulVec_solvePermuted (h : F.Factors a) (hF : Shape F) {b : Array K} (hb : b.size = F.dim) :
    leading F.dim a *ᵥ values F.dim (F.solvePermuted b) = values F.dim b := by
  have hL : ∀ i c, i ≤ c → F.lower.entry i c = 0 := fun i c => h.full.entry_of_le
  have hdiagInv : F.diagInv.size = F.dim := hF.size_diagInv.trans hF.size_diag.symm
  obtain ⟨hsize, hlower⟩ := solveLower_spec hL b
  generalize hy : solveLower F.lower b = y at hsize hlower
  have hz : ∀ t < F.dim, (Array.zipWith (· * ·) y F.diagInv).getD t 0 = y.getD t 0 * F.diagInv.getD t 0 := by
    intro t ht
    have hty : t < y.size := by omega
    have htd : t < F.diagInv.size := by omega
    simp [Array.getD_eq_getD_getElem?, hty, htd]
  obtain ⟨hsize', hupper⟩ := solveUpper_spec hL (Array.zipWith (· * ·) y F.diagInv)
  have hzsize : (Array.zipWith (· * ·) y F.diagInv).size = F.dim := by
    rw [Array.size_zipWith]
    omega
  rw [hzsize] at hsize' hupper
  rw [hb] at hlower
  rw [solvePermuted, hy]
  generalize solveUpper F.lower (Array.zipWith (· * ·) y F.diagInv) = x at hsize' hupper
  have hgather : ∀ t < F.dim, F.diag.getD t 0 * ∑ j ∈ Finset.range F.dim, F.lower.unit j t * x.getD j 0 = y.getD t 0 := by
    intro t ht
    rw [sum_unit_column hL _ ht, hupper t ht, hz t ht, h.diagInv_eq t ht, mul_left_comm,
      mul_inv_cancel₀ (h.ne_zero t ht), mul_one]
  ext i
  calc (leading F.dim a *ᵥ values F.dim x) i
      = ∑ j ∈ Finset.range F.dim, a i j * x.getD j 0 := (Finset.sum_range fun j => a i j * x.getD j 0).symm
    _ = ∑ j ∈ Finset.range F.dim, ∑ t ∈ Finset.range F.dim, F.lower.unit i t * (F.diag.getD t 0 * (F.lower.unit j t * x.getD j 0)) := by
        refine Finset.sum_congr rfl fun j hj => ?_
        rw [h.elim i i.isLt j (Finset.mem_range.mp hj), Finset.sum_mul]
        refine Finset.sum_congr rfl fun t _ => ?_
        ring
    _ = ∑ t ∈ Finset.range F.dim, F.lower.unit i t * y.getD t 0 := by
        rw [Finset.sum_comm]
        refine Finset.sum_congr rfl fun t ht => ?_
        rw [← hgather t (Finset.mem_range.mp ht), Finset.mul_sum, Finset.mul_sum]
    _ = values F.dim b i := by
        rw [sum_unit_row hL _ i.isLt]
        exact hlower i i.isLt

/-- The solution of the system with the matrix from which the factors were made. -/
theorem Factors.mulVec_solve (h : F.Factors a) (hF : Shape F) (hπ : Permutes F.perm F.inverse F.dim)
    {M : Matrix (Fin F.dim) (Fin F.dim) K} (hM : leading F.dim a = M.submatrix hπ.equiv hπ.equiv) (b : Array K) :
    M *ᵥ values F.dim (F.solve b) = values F.dim b := by
  have hget : ∀ i : Fin F.dim, values F.dim (F.perm.map fun i => b.getD i 0) i = values F.dim b (hπ.equiv i) := by
    intro i
    have hi : (i : Nat) < F.perm.size := by rw [hπ.size_perm]; exact i.isLt
    simp [values, Permutes.equiv, Array.getD_eq_getD_getElem?, hi]
  have hsolve := h.mulVec_solvePermuted hF (b := F.perm.map fun i => b.getD i 0) (by rw [Array.size_map, hπ.size_perm])
  have hx : values F.dim (F.solvePermuted (F.perm.map fun i => b.getD i 0)) = values F.dim (F.solve b) ∘ hπ.equiv := by
    ext i
    have hi : ((hπ.equiv i : Fin F.dim) : Nat) < F.inverse.size := by rw [hπ.size_inverse]; exact (hπ.equiv i).isLt
    have hback : F.inverse.getD (hπ.equiv i) 0 = i := hπ.inverse_perm i i.isLt
    rw [Array.getD_eq_getD_getElem?, Array.getElem?_eq_getElem hi, Option.getD_some] at hback
    simp [values, solve, Array.getD_eq_getD_getElem?, hi, hback]
  rw [hM, hx, mulVec_submatrix] at hsolve
  ext i
  obtain ⟨j, rfl⟩ := hπ.equiv.surjective i
  rw [← hget]
  exact congrFun hsolve j

end AugLag.Factorization
