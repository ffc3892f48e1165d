import AugLag.Proofs.Factor.Columns
import AugLag.Proofs.Sparse.CountingSort
import AugLag.Proofs.Sparse.Search
import AugLag.Factor.Permute

/-!
# Permutations of a symmetric matrix

The inverse of a permutation is found, and the upper triangle of a permuted matrix is a counting sort of the entries
by their new columns. Every slot of the matrix has its slot in the permuted one, so that values can be replaced.
-/

namespace AugLag

/-! ## Inverse permutations -/

/-- The two arrays are permutations of `0, …, N - 1` and inverse to each other. -/
structure Permutes (perm inverse : Array Nat) (N : Nat) : Prop where
  size_perm : perm.size = N
  size_inverse : inverse.size = N
  perm_lt : ∀ i < N, perm.getD i 0 < N
  inverse_lt : ∀ i < N, inverse.getD i 0 < N
  inverse_perm : ∀ i < N, inverse.getD (perm.getD i 0) 0 = i
  perm_inverse : ∀ i < N, perm.getD (inverse.getD i 0) 0 = i

/-- The permutation of rows and columns. -/
def Permutes.equiv {perm inverse : Array Nat} {N : Nat} (h : Permutes perm inverse N) : Equiv.Perm (Fin N) where
  toFun i := ⟨perm.getD i 0, h.perm_lt i i.isLt⟩
  invFun i := ⟨inverse.getD i 0, h.inverse_lt i i.isLt⟩
  left_inv i := Fin.ext (h.inverse_perm i i.isLt)
  right_inv i := Fin.ext (h.perm_inverse i i.isLt)

theorem Permutes.lt_of_mem_perm {perm inverse : Array Nat} {N i : Nat} (h : Permutes perm inverse N)
    (hi : i ∈ perm.toList) : i < N := by
  obtain ⟨k, hk, rfl⟩ := List.mem_iff_getElem.mp hi
  have hlt := h.perm_lt k (h.size_perm ▸ hk)
  simpa [Array.getD_eq_getD_getElem?, show k < perm.size from hk] using hlt

theorem Permutes.symm {perm inverse : Array Nat} {N : Nat} (h : Permutes perm inverse N) : Permutes inverse perm N :=
  ⟨h.size_inverse, h.size_perm, h.inverse_lt, h.perm_lt, h.perm_inverse, h.inverse_perm⟩

/-- The table of the inverse after some steps: the places that were named know who named them. -/
theorem foldl_invert (perm : Array Nat) (hlt : ∀ i < perm.size, perm.getD i 0 < perm.size)
    (hinj : ∀ i < perm.size, ∀ j < perm.size, perm.getD i 0 = perm.getD j 0 → i = j) (k : Nat) (hk : k ≤ perm.size) :
    ∃ table : Array (Option Nat),
      (List.range k).foldl (fun (acc : Option (Array (Option Nat))) i => acc.bind fun inverse =>
          match inverse[perm.getD i 0]? with
          | some none => some (inverse.setIfInBounds (perm.getD i 0) (some i))
          | _ => none) (some (Array.replicate perm.size none)) = some table ∧
        table.size = perm.size ∧ (∀ i < k, table.getD (perm.getD i 0) none = some i) ∧
          ∀ q, (∀ i < k, perm.getD i 0 ≠ q) → table.getD q none = none := by
  induction k with
  | zero => exact ⟨_, rfl, Array.size_replicate, fun i hi => absurd hi (Nat.not_lt_zero i),
      fun q _ => by rw [getD_replicate, ite_self]⟩
  | succ k ih =>
      obtain ⟨table, hfold, hsize, hnamed, hfree⟩ := ih (by omega)
      have hplace : perm.getD k 0 < table.size := by
        rw [hsize]
        exact hlt k hk
      have hnone : table[perm.getD k 0]? = some none := by
        have hget := hfree (perm.getD k 0) fun i hi heq => by
          have := hinj i (by omega) k hk heq
          omega
        rw [Array.getD_eq_getD_getElem?, Array.getElem?_eq_getElem hplace, Option.getD_some] at hget
        rw [Array.getElem?_eq_getElem hplace, hget]
      refine ⟨table.setIfInBounds (perm.getD k 0) (some k), ?_, by rw [Array.size_setIfInBounds, hsize],
        fun i hi => ?_, fun q hq => ?_⟩
      · rw [List.range_succ, List.foldl_append, hfold, List.foldl_cons, List.foldl_nil, Option.bind_some, hnone]
      · rcases Nat.lt_succ_iff_lt_or_eq.mp hi with hik | rfl
        · have hne : perm.getD k 0 ≠ perm.getD i 0 := by
            intro heq
            have := hinj k hk i (by omega) heq
            omega
          rw [getD_setIfInBounds_of_ne _ _ _ hne]
          exact hnamed i hik
        · exact getD_setIfInBounds_self _ hplace _ _
      · rw [getD_setIfInBounds_of_ne _ _ _ (hq k (Nat.lt_succ_self k))]
        exact hfree q fun i hi => hq i (by omega)

theorem getD_eq_get {perm : Array Nat} (i : Fin perm.toList.length) : perm.getD i 0 = perm.toList.get i := by
  have hi : (i : Nat) < perm.size := i.isLt
  simp [Array.getD_eq_getD_getElem?, hi]

theorem getD_map_getD (table : Array (Option Nat)) (q : Nat) :
    (table.map (·.getD 0)).getD q 0 = (table.getD q none).getD 0 := by
  simp only [Array.getD_eq_getD_getElem?, Array.getElem?_map]
  cases table[q]? with
  | none => rfl
  | some entry => rfl

section Listing

variable {perm : Array Nat} (h : perm.toList.Perm (List.range perm.size))

include h

theorem getD_lt_of_perm {i : Nat} (hi : i < perm.size) : perm.getD i 0 < perm.size := by
  rw [getD_eq_get ⟨i, hi⟩]
  exact List.mem_range.mp (h.mem_iff.mp (List.get_mem ..))

theorem getD_inj_of_perm {i j : Nat} (hi : i < perm.size) (hj : j < perm.size)
    (heq : perm.getD i 0 = perm.getD j 0) : i = j := by
  rw [getD_eq_get ⟨i, hi⟩, getD_eq_get ⟨j, hj⟩] at heq
  exact Fin.mk.inj (List.nodup_iff_injective_get.mp (h.nodup_iff.mpr List.nodup_range) heq)

theorem exists_getD_of_perm {q : Nat} (hq : q < perm.size) : ∃ i < perm.size, perm.getD i 0 = q := by
  obtain ⟨i, heq⟩ := List.get_of_mem (h.mem_iff.mpr (List.mem_range.mpr hq))
  exact ⟨i, i.isLt, (getD_eq_get i).trans heq⟩

/-- A permutation of the places has an inverse, and it is found. -/
theorem exists_invertPermutation : ∃ inverse, invertPermutation? perm = some inverse ∧ Permutes perm inverse perm.size := by
  obtain ⟨table, hfold, hsize, hnamed, -⟩ :=
    foldl_invert perm (fun _ => getD_lt_of_perm h) (fun _ hi _ => getD_inj_of_perm h hi) perm.size le_rfl
  refine ⟨table.map (·.getD 0), (congrArg (Option.map _) hfold).trans (Option.map_some _ _), ?_⟩
  have hinverse : ∀ i < perm.size, (table.map (·.getD 0)).getD (perm.getD i 0) 0 = i := by
    intro i hi
    rw [getD_map_getD, hnamed i hi]
    rfl
  exact
    { size_perm := rfl
      size_inverse := by rw [Array.size_map, hsize]
      perm_lt := fun _ => getD_lt_of_perm h
      inverse_lt := fun q hq => by
        obtain ⟨i, hi, rfl⟩ := exists_getD_of_perm h hq
        rw [hinverse i hi]
        exact hi
      inverse_perm := hinverse
      perm_inverse := fun q hq => by
        obtain ⟨i, hi, rfl⟩ := exists_getD_of_perm h hq
        rw [hinverse i hi] }

end Listing

/-- The table of the inverse, if it is found: who names a place is known there, and nobody else is. -/
theorem foldl_invert_eq_some (perm : Array Nat) (k : Nat) {table : Array (Option Nat)}
    (h : (List.range k).foldl (fun (acc : Option (Array (Option Nat))) i => acc.bind fun inverse =>
      match inverse[perm.getD i 0]? with
      | some none => some (inverse.setIfInBounds (perm.getD i 0) (some i))
      | _ => none) (some (Array.replicate perm.size none)) = some table) :
    table.size = perm.size ∧ (∀ i < k, table.getD (perm.getD i 0) none = some i) ∧
      ∀ q, table.getD q none = none ∨ ∃ i < k, table.getD q none = some i := by
  induction k generalizing table with
  | zero =>
      obtain rfl := Option.some.inj h
      exact ⟨Array.size_replicate, fun i hi => absurd hi (Nat.not_lt_zero i),
        fun q => .inl (by rw [getD_replicate, ite_self])⟩
  | succ k ih =>
      rw [List.range_succ, List.foldl_append, List.foldl_cons, List.foldl_nil, Option.bind_eq_some_iff] at h
      obtain ⟨before, hbefore, hstep⟩ := h
      obtain ⟨hsize, hnamed, hcases⟩ := ih hbefore
      split at hstep
      · next hfree =>
          obtain rfl := Option.some.inj hstep
          have hplace : perm.getD k 0 < before.size := (Array.getElem?_eq_some_iff.mp hfree).1
          have hnone : before.getD (perm.getD k 0) none = none := by
            rw [Array.getD_eq_getD_getElem?, hfree]
            rfl
          refine ⟨Array.size_setIfInBounds.trans hsize, fun i hi => ?_, fun q => ?_⟩
          · rcases Nat.lt_succ_iff_lt_or_eq.mp hi with hik | rfl
            · have hne : perm.getD k 0 ≠ perm.getD i 0 := by
                intro heq
                rw [heq, hnamed i hik] at hnone
                cases hnone
              rw [getD_setIfInBounds_of_ne _ _ _ hne]
              exact hnamed i hik
            · exact getD_setIfInBounds_self _ hplace _ _
          · rw [getD_setIfInBounds]
            split
            · exact .inr ⟨k, Nat.lt_succ_self k, rfl⟩
            · rcases hcases q with hfree | ⟨i, hi, hsome⟩
              · exact .inl hfree
              · exact .inr ⟨i, by omega, hsome⟩
      · cases hstep

/-- An array with an inverse names no place twice, and the inverse names places of the array. -/
theorem invertPermutation_spec {perm inverse : Array Nat} (h : invertPermutation? perm = some inverse) :
    perm.toList.Nodup ∧ ∀ q, inverse.getD q 0 = 0 ∨ inverse.getD q 0 < perm.size := by
  obtain ⟨table, hfold, rfl⟩ := Option.map_eq_some_iff.mp h
  obtain ⟨-, hnamed, hcases⟩ := foldl_invert_eq_some perm perm.size hfold
  refine ⟨List.nodup_iff_injective_get.mpr fun i j heq => ?_, fun q => ?_⟩
  · have hi := hnamed i i.isLt
    rw [getD_eq_get, heq, ← getD_eq_get, hnamed j j.isLt] at hi
    exact Fin.ext (Option.some.inj hi).symm
  · rcases hcases q with hnone | ⟨i, hi, hsome⟩
    · exact .inl (by rw [getD_map_getD, hnone]; rfl)
    · exact .inr (by rw [getD_map_getD, hsome]; exact hi)

/-- An array with an inverse is a permutation. -/
theorem permutes_of_invertPermutation {perm inverse : Array Nat} (h : invertPermutation? perm = some inverse) :
    Permutes perm inverse perm.size := by
  obtain ⟨table, hfold, -⟩ := Option.map_eq_some_iff.mp h
  obtain ⟨hsize, hnamed, -⟩ := foldl_invert_eq_some perm perm.size hfold
  have hlt : ∀ i < perm.size, perm.getD i 0 < perm.size := by
    intro i hi
    by_contra hle
    have hentry := hnamed i hi
    rw [getD_of_size_le _ (by rw [hsize]; omega)] at hentry
    cases hentry
  have hsubset : perm.toList ⊆ List.range perm.size := by
    intro v hv
    obtain ⟨i, rfl⟩ := List.get_of_mem hv
    rw [← getD_eq_get]
    exact List.mem_range.mpr (hlt i i.isLt)
  have hperm : perm.toList.Perm (List.range perm.size) :=
    (List.subperm_of_subset (invertPermutation_spec h).1 hsubset).perm_of_length_le (by simp)
  obtain ⟨inverse', hinverse, hpermutes⟩ := exists_invertPermutation hperm
  obtain rfl := Option.some.inj (h.symm.trans hinverse)
  exact hpermutes

namespace PermutedUpper

open SparseMatrix

/-! ## Entries and their new places -/

section Pattern

variable {T : Type} {A : SparseMatrix T} {perm inverse : Array Nat} {N : Nat}

/-- The column to which an entry goes. -/
def keyOf (e : Nat × Nat × Nat) : Nat := e.2.2

theorem map_fst_targets (h : Layout A) (inverse : Array Nat) :
    (targets A inverse).map Prod.fst = List.range A.values.size := by
  rw [← h.flatMap_slots, targets, List.map_flatMap]
  refine List.flatMap_congr fun j _ => ?_
  rw [List.map_map]
  exact List.map_id _

theorem length_targets (h : Layout A) (inverse : Array Nat) : (targets A inverse).length = A.values.size := by
  rw [← @List.length_map _ _ (targets A inverse) Prod.fst, map_fst_targets h, List.length_range]

theorem mem_targets {e : Nat × Nat × Nat} :
    e ∈ targets A inverse ↔ ∃ j < A.cols, ∃ k ∈ A.slots j, e = (k, target inverse (A.rowAt k) j) := by
  simp only [targets, List.mem_flatMap, List.mem_range, List.mem_map, eq_comm]

/-- An entry of the upper triangle has a place in the permuted one. -/
theorem target_bounds (hbound : ∀ i < N, inverse.getD i 0 < N) {i j : Nat} (hi : i < N) (hj : j < N) :
    (target inverse i j).1 ≤ (target inverse i j).2 ∧ (target inverse i j).2 < N :=
  ⟨min_le_max, max_lt (hbound i hi) (hbound j hj)⟩

theorem keyOf_lt (hupper : A.Upper) (hbound : ∀ i < A.cols, inverse.getD i 0 < A.cols) :
    ∀ e ∈ targets A inverse, keyOf e < A.cols := by
  intro e he
  obtain ⟨j, hj, k, hk, rfl⟩ := mem_targets.mp he
  exact (target_bounds hbound ((hupper j hj k hk).trans_lt hj) hj).2

/-- The entries with their new slots. -/
def placed (A : SparseMatrix T) (inverse : Array Nat) : List ((Nat × Nat × Nat) × Nat) :=
  (targets A inverse).zip (places keyOf (starts keyOf (targets A inverse) A.cols) (targets A inverse))

theorem map_fst_placed (A : SparseMatrix T) (inverse : Array Nat) :
    (placed A inverse).map Prod.fst = targets A inverse :=
  List.map_fst_zip (by simp)

/-! ## The slots of the matrix and those of the permuted triangle -/

/-- The slots of a matrix, and the slots of the sorted triangle, one for one. -/
structure Sorted (A : SparseMatrix T) (inverse : Array Nat) (S : PermutedUpper T) : Prop where
  source : Layout A
  upper : A.Upper
  bound : ∀ i < A.cols, inverse.getD i 0 < A.cols
  layout : Layout S.matrix
  cols_eq : S.matrix.cols = A.cols
  size_values : S.matrix.values.size = A.values.size
  size_slotOf : S.slotOf.size = A.values.size
  mem_slots : ∀ j < A.cols, ∀ k ∈ A.slots j, S.slotOf.getD k 0 ∈ S.matrix.slots (target inverse (A.rowAt k) j).2
  row_eq : ∀ j < A.cols, ∀ k ∈ A.slots j, S.matrix.rowAt (S.slotOf.getD k 0) = (target inverse (A.rowAt k) j).1
  exists_slot : ∀ c < A.cols, ∀ p ∈ S.matrix.slots c, ∃ j < A.cols, ∃ k ∈ A.slots j, S.slotOf.getD k 0 = p
  slot_inj : ∀ k < A.values.size, ∀ k' < A.values.size, S.slotOf.getD k 0 = S.slotOf.getD k' 0 → k = k'

namespace Sorted

variable {S : PermutedUpper T}

theorem withValues (h : Sorted A inverse S) {values : Array T} (hs : values.size = A.values.size) :
    Sorted { A with values } inverse S where
  source := h.source.withValues hs
  upper := h.upper
  bound := h.bound
  layout := h.layout
  cols_eq := h.cols_eq
  size_values := h.size_values.trans hs.symm
  size_slotOf := h.size_slotOf.trans hs.symm
  mem_slots := h.mem_slots
  row_eq := h.row_eq
  exists_slot := h.exists_slot
  slot_inj k hk k' hk' := h.slot_inj k (hs ▸ hk) k' (hs ▸ hk')

theorem target_bounds (h : Sorted A inverse S) {j k : Nat} (hj : j < A.cols) (hk : k ∈ A.slots j) :
    (target inverse (A.rowAt k) j).1 ≤ (target inverse (A.rowAt k) j).2 ∧ (target inverse (A.rowAt k) j).2 < A.cols :=
  PermutedUpper.target_bounds h.bound ((h.upper j hj k hk).trans_lt hj) hj

theorem slot_lt (h : Sorted A inverse S) {k : Nat} (hk : k < A.values.size) :
    S.slotOf.getD k 0 < S.matrix.values.size := by
  obtain ⟨j, hj, hkj⟩ := h.source.exists_column hk
  refine h.layout.lt_size ?_ (h.mem_slots j hj k hkj)
  rw [h.cols_eq]
  exact (h.target_bounds hj hkj).2

/-- An entry of the sorted triangle comes from an entry of the matrix. -/
theorem exists_source (h : Sorted A inverse S) {c p : Nat} (hc : c < A.cols) (hp : p ∈ S.matrix.slots c) :
    ∃ j < A.cols, ∃ k ∈ A.slots j, S.slotOf.getD k 0 = p ∧ target inverse (A.rowAt k) j = (S.matrix.rowAt p, c) := by
  obtain ⟨j, hj, k, hk, rfl⟩ := h.exists_slot c hc p hp
  refine ⟨j, hj, k, hk, rfl, Prod.ext (h.row_eq j hj k hk).symm ?_⟩
  refine h.layout.column_unique ?_ ?_ (h.mem_slots j hj k hk) hp
  · rw [h.cols_eq]
    exact (h.target_bounds hj hk).2
  · rw [h.cols_eq]
    exact hc

/-- Every slot of the sorted triangle belongs to a slot of the matrix. -/
theorem exists_slotOf (h : Sorted A inverse S) {p : Nat} (hp : p < S.matrix.values.size) :
    ∃ k < A.values.size, S.slotOf.getD k 0 = p := by
  obtain ⟨c, hc, hpc⟩ := h.layout.exists_column hp
  obtain ⟨j, hj, k, hk, heq⟩ := h.exists_slot c (h.cols_eq ▸ hc) p hpc
  exact ⟨k, h.source.lt_size hj hk, heq⟩

/-- The sorted triangle stores nothing below the diagonal. -/
theorem upper_matrix (h : Sorted A inverse S) : S.matrix.Upper := by
  intro c hc p hp
  rw [h.cols_eq] at hc
  obtain ⟨j, hj, k, hk, -, htarget⟩ := h.exists_source hc hp
  have hle := (h.target_bounds hj hk).1
  rw [htarget] at hle
  exact hle

end Sorted

/-- The triangle of a matrix whose rows and columns are permuted. -/
structure Mirrors (A : SparseMatrix T) (perm inverse : Array Nat) (S : PermutedUpper T) : Prop
    extends Sorted A inverse S where
  permutes : Permutes perm inverse A.cols

namespace Mirrors

variable {S : PermutedUpper T}

/-- Two places of an upper triangle that go to one place are equal. -/
theorem eq_of_target_eq (h : Mirrors A perm inverse S) {i j i' j' : Nat} (hij : i ≤ j) (hj : j < A.cols) (hij' : i' ≤ j')
    (hj' : j' < A.cols) (heq : target inverse i j = target inverse i' j') : i = i' ∧ j = j' := by
  have hinj : ∀ a < A.cols, ∀ b < A.cols, inverse.getD a 0 = inverse.getD b 0 → a = b := by
    intro a ha b hb hab
    rw [← h.permutes.perm_inverse a ha, hab, h.permutes.perm_inverse b hb]
  have hrow : min (inverse.getD i 0) (inverse.getD j 0) = min (inverse.getD i' 0) (inverse.getD j' 0) :=
    congrArg Prod.fst heq
  have hcol : max (inverse.getD i 0) (inverse.getD j 0) = max (inverse.getD i' 0) (inverse.getD j' 0) :=
    congrArg Prod.snd heq
  rcases (by omega : inverse.getD i 0 = inverse.getD i' 0 ∧ inverse.getD j 0 = inverse.getD j' 0 ∨
      inverse.getD i 0 = inverse.getD j' 0 ∧ inverse.getD j 0 = inverse.getD i' 0) with ⟨h₁, h₂⟩ | ⟨h₁, h₂⟩
  · exact ⟨hinj i (by omega) i' (by omega) h₁, hinj j hj j' hj' h₂⟩
  · have hi := hinj i (by omega) j' hj' h₁
    have hj := hinj j hj i' (by omega) h₂
    omega

/-- The permuted triangle stores no place twice. -/
theorem nodup_matrix (h : Mirrors A perm inverse S) (hA : Distinct A) {c : Nat} (hc : c < A.cols) :
    ((S.matrix.slots c).map S.matrix.rowAt).Nodup := by
  refine (nodup_slots S.matrix c).map_on fun p hp p' hp' hrow => ?_
  obtain ⟨j, hj, k, hk, rfl, htarget⟩ := h.exists_source hc hp
  obtain ⟨j', hj', k', hk', rfl, htarget'⟩ := h.exists_source hc hp'
  rw [← hrow, ← htarget] at htarget'
  obtain ⟨hrows, rfl⟩ := h.eq_of_target_eq (h.upper j hj k hk) hj (h.upper j' hj' k' hk') hj' htarget'.symm
  rw [hA.eq_of_rowAt_eq hj hk hk' hrows]

end Mirrors

/-! ## The result of sorting -/

variable [Scalar T]

/-- The arrays that the placement of some entries fills, each by itself. -/
theorem foldl_place_eq (l : List (Nat × Nat × Nat)) (next : Array Nat) (S : PermutedUpper T) :
    (l.foldl (place A) (next, S)).2 =
      { matrix := { S.matrix with
          rowIdx := (l.zip (places keyOf next l)).foldl (fun out e => out.setIfInBounds e.2 e.1.2.1) S.matrix.rowIdx
          values := (l.zip (places keyOf next l)).foldl (fun out e => out.setIfInBounds e.2 (A.valueAt e.1.1)) S.matrix.values }
        slotOf := (l.zip (places keyOf next l)).foldl (fun out e => out.setIfInBounds e.1.1 e.2) S.slotOf } := by
  induction l generalizing next S with
  | nil => rfl
  | cons e l ih =>
      rw [List.foldl_cons, place, ih]
      rfl

theorem ofMatrix_eq (A : SparseMatrix T) (inverse : Array Nat) :
    ofMatrix A inverse =
      { matrix :=
          { rows := A.cols
            cols := A.cols
            colPtr := starts keyOf (targets A inverse) A.cols
            rowIdx := (placed A inverse).foldl (fun out e => out.setIfInBounds e.2 e.1.2.1) (Array.replicate A.nnz 0)
            values := (placed A inverse).foldl (fun out e => out.setIfInBounds e.2 (A.valueAt e.1.1))
              (Array.replicate A.nnz 0) }
        slotOf := (placed A inverse).foldl (fun out e => out.setIfInBounds e.1.1 e.2) (Array.replicate A.nnz 0) } :=
  foldl_place_eq ..

/-- An entry is found at the slot that it was given. -/
theorem slotOf_placed (h : Layout A) {e : (Nat × Nat × Nat) × Nat} (he : e ∈ placed A inverse) :
    (ofMatrix A inverse).slotOf.getD e.1.1 0 = e.2 := by
  have hnodup : ((placed A inverse).map fun e => e.1.1).Nodup := by
    have hslots : (placed A inverse).map (fun e => e.1.1) = List.range A.values.size := by
      rw [← map_fst_targets h inverse, ← map_fst_placed, List.map_map]
      rfl
    rw [hslots]
    exact List.nodup_range
  rw [ofMatrix_eq]
  refine getD_foldl_set_of_mem _ _ _ _ _ ?_ ⟨e, he, rfl⟩ fun e' he' heq => ?_
  · have hmem : e.1 ∈ targets A inverse := map_fst_placed A inverse ▸ List.mem_map_of_mem he
    obtain ⟨j, hj, k, hk, hek⟩ := mem_targets.mp hmem
    rw [Array.size_replicate, h.nnz_eq, hek]
    exact h.lt_size hj hk
  · rw [List.inj_on_of_nodup_map hnodup he' he heq]

theorem mem_placed (h : Layout A) {j k : Nat} (hj : j < A.cols) (hk : k ∈ A.slots j) :
    ((k, target inverse (A.rowAt k) j), (ofMatrix A inverse).slotOf.getD k 0) ∈ placed A inverse := by
  have hmem : (k, target inverse (A.rowAt k) j) ∈ (placed A inverse).map Prod.fst := by
    rw [map_fst_placed]
    exact mem_targets.mpr ⟨j, hj, k, hk, rfl⟩
  obtain ⟨e, he, heq⟩ := List.mem_map.mp hmem
  have hslot := slotOf_placed h he
  rw [heq] at hslot
  rw [hslot, ← heq]
  exact he

/-- The slots of a column are given to the entries that belong there. -/
theorem exists_placed {c p : Nat} (hc : c < A.cols) (hp : p ∈ (ofMatrix A inverse).matrix.slots c) :
    ∃ e ∈ placed A inverse, e.2 = p := by
  have hsize : c < (starts keyOf (targets A inverse) A.cols).size := by
    rw [size_starts]
    omega
  have hplaces := places_of_key keyOf (targets A inverse) hsize
  have hmem : p ∈ List.range' ((starts keyOf (targets A inverse) A.cols).getD c 0)
      ((targets A inverse).countP fun b => keyOf b = c) := by
    rw [SparseMatrix.mem_slots, ofMatrix_eq] at hp
    have hfirst : (starts keyOf (targets A inverse) A.cols).getD c 0 ≤ p := hp.1
    have hstop : p < (starts keyOf (targets A inverse) A.cols).getD (c + 1) 0 := hp.2
    rw [getD_starts keyOf _ (by omega)] at hfirst hstop
    rw [countP_lt_succ] at hstop
    rw [List.mem_range'_1, getD_starts keyOf _ (by omega)]
    exact ⟨hfirst, hstop⟩
  rw [← hplaces] at hmem
  obtain ⟨e, he, heq⟩ := List.mem_map.mp hmem
  exact ⟨e, List.mem_of_mem_filter he, heq⟩

/-- The triangle holds the values of the matrix. -/
def Holds (S : PermutedUpper T) (A : SparseMatrix T) : Prop :=
  ∀ k < A.values.size, S.matrix.valueAt (S.slotOf.getD k 0) = A.valueAt k

theorem layout_ofMatrix (hA : Layout A) (hupper : A.Upper) (hbound : ∀ i < A.cols, inverse.getD i 0 < A.cols) :
    Layout (ofMatrix A inverse).matrix := by
  have hvalues : (ofMatrix A inverse).matrix.values.size = A.values.size := by
    rw [ofMatrix_eq, ← hA.nnz_eq]
    simp
  refine { size_colPtr := ?_, first_zero := ?_, first_le_stop := fun j hj => ?_, nnz_eq := ?_, size_rowIdx := ?_ }
  · rw [ofMatrix_eq]
    exact size_starts ..
  · rw [ofMatrix_eq]
    refine (getD_starts keyOf (targets A inverse) (Nat.zero_le _)).trans ?_
    simp
  · rw [ofMatrix_eq] at hj ⊢
    exact starts_mono keyOf (targets A inverse) (Nat.le_succ j) hj
  · rw [hvalues, ← length_targets hA inverse, ofMatrix_eq]
    exact getD_starts_bound (keyOf_lt hupper hbound)
  · rw [ofMatrix_eq]
    simp

theorem sorted_ofMatrix (hA : Layout A) (hupper : A.Upper) (hbound : ∀ i < A.cols, inverse.getD i 0 < A.cols) :
    Sorted A inverse (ofMatrix A inverse) := by
  have hkey := keyOf_lt hupper hbound
  have hroom : (targets A inverse).length ≤ (Array.replicate A.nnz 0).size := by
    rw [length_targets hA, Array.size_replicate, hA.nnz_eq]
  refine { source := hA, upper := hupper, bound := hbound, layout := layout_ofMatrix hA hupper hbound, cols_eq := by rw [ofMatrix_eq],
           size_values := by rw [ofMatrix_eq, ← hA.nnz_eq]; simp, size_slotOf := by rw [ofMatrix_eq, ← hA.nnz_eq]; simp,
           mem_slots := fun j hj k hk => ?_, row_eq := fun j hj k hk => ?_, exists_slot := fun c hc p hp => ?_,
           slot_inj := fun k hk k' hk' heq => ?_ }
  · rw [SparseMatrix.mem_slots]
    have hpair : ((k, target inverse (A.rowAt k) j), (ofMatrix A inverse).slotOf.getD k 0) ∈ placed A inverse :=
      mem_placed hA hj hk
    have hbounds := mem_places_starts hkey hpair
    rw [ofMatrix_eq] at hbounds ⊢
    exact hbounds
  · have hscatter := getD_scatter_places hkey (fun e => e.2.1) 0 hroom (mem_placed hA hj hk)
    rw [ofMatrix_eq] at hscatter ⊢
    exact hscatter
  · obtain ⟨e, he, rfl⟩ := exists_placed hc hp
    have hmem : e.1 ∈ targets A inverse := map_fst_placed A inverse ▸ List.mem_map_of_mem he
    obtain ⟨j, hj, k, hk, hek⟩ := mem_targets.mp hmem
    refine ⟨j, hj, k, hk, ?_⟩
    rw [← slotOf_placed hA he, hek]
  · obtain ⟨j, hj, hkj⟩ := hA.exists_column hk
    obtain ⟨j', hj', hkj'⟩ := hA.exists_column hk'
    have hpair : ((k, target inverse (A.rowAt k) j), (ofMatrix A inverse).slotOf.getD k 0) ∈ placed A inverse :=
      mem_placed hA hj hkj
    have hpair' : ((k', target inverse (A.rowAt k') j'), (ofMatrix A inverse).slotOf.getD k 0) ∈ placed A inverse :=
      heq ▸ mem_placed hA hj' hkj'
    exact congrArg Prod.fst (places_inj hkey hpair hpair')

theorem holds_ofMatrix (hA : Layout A) (hupper : A.Upper) (hbound : ∀ i < A.cols, inverse.getD i 0 < A.cols) :
    (ofMatrix A inverse).Holds A := by
  intro k hk
  obtain ⟨j, hj, hkj⟩ := hA.exists_column hk
  have hroom : (targets A inverse).length ≤ (Array.replicate A.nnz (0 : T)).size := by
    rw [length_targets hA, Array.size_replicate, hA.nnz_eq]
  have hscatter := getD_scatter_places (keyOf_lt hupper hbound) (fun e => A.valueAt e.1) 0 hroom (mem_placed hA hj hkj)
  rw [ofMatrix_eq] at hscatter ⊢
  exact hscatter

end Pattern

/-! ## The permuted matrix -/

section Exact

variable {K : Type} [ExactScalar K] {A : SparseMatrix K} {perm inverse : Array Nat} {S : PermutedUpper K}

/-- The two places of a symmetric table that a place of its permuted triangle stands for. -/
theorem Mirrors.sym_eq (h : Mirrors A perm inverse S) {i j r c : Nat} (hij : i ≤ j) (hj : j < A.cols)
    (htarget : target inverse i j = (r, c)) : A.sym (perm.getD r 0) (perm.getD c 0) = A.entry i j := by
  have hrow : min (inverse.getD i 0) (inverse.getD j 0) = r := congrArg Prod.fst htarget
  have hcol : max (inverse.getD i 0) (inverse.getD j 0) = c := congrArg Prod.snd htarget
  have hi := h.permutes.perm_inverse i (by omega)
  have hj := h.permutes.perm_inverse j hj
  rcases le_total (inverse.getD i 0) (inverse.getD j 0) with hle | hle
  · rw [← hrow, ← hcol, min_eq_left hle, max_eq_right hle, hi, hj, sym_of_le hij]
  · rw [← hrow, ← hcol, min_eq_right hle, max_eq_left hle, hi, hj, sym_comm, sym_of_le hij]

/-- The permuted triangle holds the entries of the permuted matrix. -/
theorem Mirrors.sym_matrix (h : Mirrors A perm inverse S) (hA : Distinct A) (hvalues : S.Holds A) {r c : Nat}
    (hr : r < A.cols) (hc : c < A.cols) : S.matrix.sym r c = A.sym (perm.getD r 0) (perm.getD c 0) := by
  wlog hrc : r ≤ c generalizing r c
  · rw [sym_comm, sym_comm A]
    exact this hc hr (not_le.mp hrc).le
  rw [sym_of_le hrc]
  by_cases hstored : ∃ p ∈ S.matrix.slots c, S.matrix.rowAt p = r
  · obtain ⟨p, hp, rfl⟩ := hstored
    rw [entry_rowAt (h.nodup_matrix hA hc) hp]
    obtain ⟨j, hj, k, hk, rfl, htarget⟩ := h.exists_source hc hp
    rw [h.sym_eq (h.upper j hj k hk) hj htarget, entry_rowAt (hA.nodup_rows j hj) hk]
    exact hvalues k (hA.lt_size hj hk)
  · rw [entry_eq_zero fun p hp heq => hstored ⟨p, hp, heq⟩]
    -- The place of the matrix that belongs here is not stored either.
    have hplace : ∃ i j, i ≤ j ∧ j < A.cols ∧ target inverse i j = (r, c) := by
      have hpr := h.permutes.perm_lt r hr
      have hpc := h.permutes.perm_lt c hc
      rcases le_total (perm.getD r 0) (perm.getD c 0) with hle | hle
      · refine ⟨_, _, hle, hpc, ?_⟩
        rw [target, h.permutes.inverse_perm r hr, h.permutes.inverse_perm c hc]
        exact Prod.ext (min_eq_left hrc) (max_eq_right hrc)
      · refine ⟨_, _, hle, hpr, ?_⟩
        rw [target, h.permutes.inverse_perm r hr, h.permutes.inverse_perm c hc]
        exact Prod.ext (min_eq_right hrc) (max_eq_left hrc)
    obtain ⟨i, j, hij, hj, htarget⟩ := hplace
    rw [h.sym_eq hij hj htarget]
    refine (entry_eq_zero fun k hk heq => hstored ⟨S.slotOf.getD k 0, ?_, ?_⟩).symm
    · have hmem := h.mem_slots j hj k hk
      rwa [heq, htarget] at hmem
    · have hrow := h.row_eq j hj k hk
      rwa [heq, htarget] at hrow

end Exact

end PermutedUpper
end AugLag
