import AugLag.Proofs.Factor.Scratch

/-!
# The matrices that are factored

The checks before a factorization look at the pattern of a matrix. They let pass columns whose rows come in any order,
and arrays that go on behind the last column. Such a matrix is factored like the one whose arrays end there, and so are
all matrices of its pattern.
-/

namespace AugLag

variable {T : Type}

namespace SparseMatrix

variable {A : SparseMatrix T}

/-! ## Arrays that end with the last column -/

/-- The matrix without what its arrays hold behind the last column. -/
def trim (A : SparseMatrix T) : SparseMatrix T where
  rows := A.rows
  cols := A.cols
  colPtr := A.colPtr.extract 0 (A.cols + 1)
  rowIdx := A.rowIdx.extract 0 A.nnz
  values := A.values.extract 0 A.nnz

/-- All columns can be read, and no entry is below the diagonal. -/
structure Readable (A : SparseMatrix T) : Prop where
  pointers : A.cols < A.colPtr.size
  first_zero : A.first 0 = 0
  room : A.nnz ≤ A.values.size
  upper : A.isUpper? = some true

theorem getD_extract {α : Type} (v : Array α) {i n : Nat} (hi : i < n) (d : α) :
    (v.extract 0 n).getD i d = v.getD i d := by
  simp only [Array.getD_eq_getD_getElem?, Array.getElem?_extract]
  by_cases hv : i < v.size
  · rw [if_pos (by omega), Nat.zero_add]
  · rw [if_neg (by omega), Array.getElem?_eq_none (by omega)]

namespace Readable

theorem column (h : Readable A) {j : Nat} (hj : j < A.cols) :
    A.first j ≤ A.stop j ∧ A.stop j ≤ A.rowIdx.size ∧ ∀ k ∈ A.slots j, A.rowAt k ≤ j := by
  have hupper := h.upper
  unfold isUpper? at hupper
  split at hupper
  · next hnone =>
      have hcolumn := List.find?_eq_none.mp hnone j (List.mem_range.mpr hj)
      simp only [rowsReadable, columnIsUpper, Bool.not_eq_true', Bool.not_eq_false, Bool.and_eq_true,
        decide_eq_true_eq, List.all_eq_true] at hcolumn
      exact ⟨hcolumn.1.1.2, hcolumn.1.2, hcolumn.2⟩
  · split at hupper
    · cases hupper
    · cases hupper

theorem first_mono (h : Readable A) {i j : Nat} (hij : i ≤ j) (hj : j ≤ A.cols) : A.first i ≤ A.first j := by
  induction j, hij using Nat.le_induction with
  | base => exact le_rfl
  | succ j _ ih => exact (ih (by omega)).trans (h.column hj).1

theorem nnz_le (h : Readable A) : A.nnz ≤ A.rowIdx.size := by
  cases hcols : A.cols with
  | zero =>
      have hzero := h.first_zero
      rw [nnz, hcols]
      exact hzero.le.trans (Nat.zero_le _)
  | succ j =>
      rw [nnz, hcols]
      exact (h.column (by omega)).2.1

theorem lt_nnz (h : Readable A) {j k : Nat} (hj : j < A.cols) (hk : k ∈ A.slots j) : k < A.nnz :=
  (mem_slots.mp hk).2.trans_le (h.first_mono hj le_rfl)

theorem first_trim (_ : Readable A) {j : Nat} (hj : j ≤ A.cols) : A.trim.first j = A.first j :=
  getD_extract _ (by omega) 0

theorem slots_trim (h : Readable A) {j : Nat} (hj : j < A.cols) : A.trim.slots j = A.slots j := by
  rw [slots, slots, ← first_succ, ← first_succ, h.first_trim hj, h.first_trim hj.le]

theorem rowAt_trim (_ : Readable A) {k : Nat} (hk : k < A.nnz) : A.trim.rowAt k = A.rowAt k := getD_extract _ hk 0

theorem valueAt_trim [Scalar T] (_ : Readable A) {k : Nat} (hk : k < A.nnz) : A.trim.valueAt k = A.valueAt k :=
  getD_extract _ hk 0

theorem size_values_trim (h : Readable A) : A.trim.values.size = A.nnz := by
  have hroom := h.room
  simp only [trim, Array.size_extract]
  omega

theorem layout_trim (h : Readable A) : Layout A.trim where
  size_colPtr := by
    have hpointers := h.pointers
    simp only [trim, Array.size_extract]
    omega
  first_zero := (h.first_trim (Nat.zero_le _)).trans h.first_zero
  first_le_stop j hj := by
    have hj' : j < A.cols := hj
    rw [← first_succ, h.first_trim hj', h.first_trim hj'.le]
    exact (h.column hj').1
  nnz_eq := (h.first_trim le_rfl).trans h.size_values_trim.symm
  size_rowIdx := by
    rw [h.size_values_trim]
    have hnnz := h.nnz_le
    simp only [trim, Array.size_extract]
    omega

theorem upper_trim (h : Readable A) : A.trim.Upper := by
  intro j hj k hk
  have hj' : j < A.cols := hj
  rw [h.slots_trim hj'] at hk
  rw [h.rowAt_trim (h.lt_nnz hj' hk)]
  exact (h.column hj').2.2 k hk

theorem isUpper_eq (h : Readable A) : A.isUpper = true := by
  simp only [isUpper, columnIsUpper, List.all_eq_true, List.mem_range, decide_eq_true_eq]
  exact fun j hj => (h.column hj).2.2

theorem withValues (h : Readable A) {values : Array T} (hs : values.size = A.values.size) :
    Readable { A with values } where
  pointers := h.pointers
  first_zero := h.first_zero
  room := h.room.trans_eq hs.symm
  upper := h.upper

end Readable
end SparseMatrix

namespace Factorization

open SparseMatrix PermutedUpper

variable {A : SparseMatrix T} {F : Factorization T} {perm inverse : Array Nat} {order : Option (Array Nat)}
variable {denseScale : Float}

theorem analyze_trim [Scalar T] (h : Readable A) (perm inverse : Array Nat) :
    analyze A perm inverse = analyze A.trim perm inverse := by
  have htargets : targets A.trim inverse = targets A inverse := by
    refine List.flatMap_congr fun j hj => ?_
    have hj' : j < A.cols := List.mem_range.mp hj
    rw [h.slots_trim hj']
    refine List.map_congr_left fun k hk => ?_
    rw [h.rowAt_trim (h.lt_nnz hj' hk)]
  have hnnz : A.trim.nnz = A.nnz := h.first_trim le_rfl
  have hplace : ∀ acc : Array Nat × PermutedUpper T, ∀ e ∈ targets A inverse, place A.trim acc e = place A acc e := by
    intro acc e he
    obtain ⟨j, hj, k, hk, rfl⟩ := mem_targets.mp he
    rw [place, place, h.valueAt_trim (h.lt_nnz hj hk)]
  have hstored : PermutedUpper.ofMatrix A.trim inverse = PermutedUpper.ofMatrix A inverse := by
    simp only [PermutedUpper.ofMatrix, htargets, hnnz]
    exact congrArg Prod.snd (List.foldl_ext _ _ _ hplace)
  rw [analyze, analyze, hstored]
  rfl

/-! ## Accepted matrices -/

/-- The matrix and the order of elimination pass all checks that come before the pivots. -/
structure Accepted (A : SparseMatrix T) (perm inverse : Array Nat) : Prop extends Readable A where
  checked : checkStructure A true = .ok ()
  size_perm : perm.size = A.cols
  inverse_eq : invertPermutation? perm = some inverse

namespace Accepted

theorem permutes (h : Accepted A perm inverse) : Permutes perm inverse A.cols :=
  h.size_perm ▸ permutes_of_invertPermutation h.inverse_eq

/-- The checks do not look at values. -/
theorem withValues (h : Accepted A perm inverse) {values : Array T} (hs : values.size = A.values.size) :
    Accepted { A with values } perm inverse :=
  { h.toReadable.withValues hs with
    checked := h.checked
    size_perm := h.size_perm
    inverse_eq := h.inverse_eq }

/-- In the given order the pivots alone decide. -/
theorem ofMatrix?_eq [Elimination.Rule] [Scalar T] (h : Accepted A perm inverse) (denseScale : Float) :
    ofMatrix? A (some perm) denseScale = some (ofPermutation A.trim perm inverse) := by
  have hchoose : chooseOrder A (some perm) denseScale = .ok perm := if_pos h.size_perm
  have hsquare : A.isSquare = true := by
    by_contra hnot
    have hchecked := h.checked
    rw [checkStructure, Bool.eq_false_of_not_eq_true hnot] at hchecked
    cases hchecked
  have hmatrix : ofMatrix A (some perm) denseScale = ofPermutation A.trim perm inverse := by
    rw [ofMatrix_eq_ofPermutation (by rw [h.isUpper_eq]; exact h.checked) hchoose h.inverse_eq, ofPermutation,
      ofPermutation, analyze_trim h.toReadable]
  have hreadable : (A.cols < A.colPtr.size && A.first 0 = 0 && A.nnz ≤ A.values.size) = true := by
    simp [h.pointers, h.first_zero, h.room]
  rw [ofMatrix?, hsquare, h.upper, h.checked, hchoose, hmatrix]
  simp [Except.map, h.inverse_eq, hreadable]

end Accepted

theorem ofPermutation_eq_ok [Scalar T] :
    ofPermutation A perm inverse = .ok F ↔ (analyze A perm inverse).refactor = (F, .ok ()) := by
  rw [ofPermutation]
  generalize (analyze A perm inverse).refactor = out
  obtain ⟨G, outcome⟩ := out
  cases outcome with
  | error e => simp [Except.map]
  | ok u => simp [Except.map]

/-- What is factored was accepted, in the order that the factors tell. An order that is chosen must list all columns. -/
theorem accepted_of_ofMatrix? [Elimination.Rule] [Scalar T] (horder : order = none →
      (Elimination.Rule.order (Elimination.graph A) denseScale).Perm (List.range A.cols))
    (h : ofMatrix? A order denseScale = some (.ok F)) :
    ∃ inverse, Accepted A F.perm inverse ∧ ofPermutation A.trim F.perm inverse = .ok F := by
  unfold ofMatrix? at h
  simp only at h
  split at h
  · cases Option.some.inj h
  · split at h
    · cases h
    · cases Option.some.inj h
    · next hupper =>
        split at h
        · cases Option.some.inj h
        · cases Option.some.inj h
        · cases Option.some.inj h
        · next inverse hchecked hchosen =>
            split at h
            · next hreadable =>
                simp only [Bool.and_eq_true, decide_eq_true_eq] at hreadable
                have hA : Readable A := ⟨hreadable.1.1, hreadable.1.2, hreadable.2, hupper⟩
                obtain ⟨perm, hchoose, hinverse⟩ := map_eq_ok.mp hchosen
                have hmatrix := ofMatrix_eq_ofPermutation (by rw [hA.isUpper_eq]; exact hchecked) hchoose hinverse
                have hF : ofPermutation A perm inverse = .ok F := hmatrix.symm.trans (Option.some.inj h)
                have hperm : F.perm = perm := by
                  obtain ⟨-, -, rfl⟩ := map_eq_ok.mp hF
                  rfl
                have hsize : perm.size = A.cols := by
                  cases order with
                  | none =>
                      rw [← eq_order_of_chooseOrder hchoose, List.size_toArray, (horder rfl).length_eq, List.length_range]
                  | some given =>
                      unfold chooseOrder at hchoose
                      simp only at hchoose
                      split at hchoose
                      · next hsize => exact Except.ok.inj hchoose ▸ hsize
                      · cases hchoose
                rw [hperm]
                refine ⟨inverse, { hA with checked := hchecked, size_perm := hsize, inverse_eq := hinverse }, ?_⟩
                rw [ofPermutation, ← analyze_trim hA]
                exact hF
            · cases h

end Factorization
end AugLag
