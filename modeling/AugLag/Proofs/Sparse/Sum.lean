import AugLag.Sparse.Algebra
import AugLag.Proofs.Exact.Scalar
import AugLag.Proofs.Sparse.Lookup

/-!
# Sums of matrices

Two pointers walk through a column of each matrix, and the one at the smaller row moves on. What they merge is in the order
of its rows and holds at each row what the columns hold there, added if both hold something (`lookup_mergeSlots`).
-/

namespace AugLag.SparseMatrix

variable {T : Type} [Scalar T] {A B : SparseMatrix T} {i iend j jend : Nat}

/-! ## What is left of a column -/

/-- The entries in the slots from `i` up to `iend`. -/
def stretch (A : SparseMatrix T) (i iend : Nat) : List (Nat × T) :=
  (List.range' i (iend - i)).map fun k => (A.rowAt k, A.valueAt k)

theorem column_eq_stretch (A : SparseMatrix T) (j : Nat) : A.column j = A.stretch (A.first j) (A.stop j) := rfl

theorem stretch_of_lt (h : i < iend) : A.stretch i iend = (A.rowAt i, A.valueAt i) :: A.stretch (i + 1) iend := by
  rw [stretch, stretch, show iend - i = iend - (i + 1) + 1 by omega, List.range'_succ, List.map_cons]

theorem stretch_of_not_lt (h : ¬i < iend) : A.stretch i iend = [] := by
  rw [stretch, Nat.sub_eq_zero_of_le (not_lt.mp h)]
  rfl

/-- The rows of the entries increase strictly. -/
def Ascend (entries : List (Nat × T)) : Prop := (entries.map Prod.fst).Pairwise (· < ·)

section Ascend

variable {r : Nat} (h : Ascend (A.stretch i iend))

include h

theorem ascend_next (hi : i < iend) :
    (∀ r ∈ (A.stretch (i + 1) iend).map Prod.fst, A.rowAt i < r) ∧ Ascend (A.stretch (i + 1) iend) := by
  rw [stretch_of_lt hi] at h
  exact List.pairwise_cons.mp h

theorem rowAt_le_of_mem (hr : r ∈ (A.stretch i iend).map Prod.fst) : A.rowAt i ≤ r := by
  by_cases hi : i < iend
  · rw [stretch_of_lt hi] at hr
    rcases List.mem_cons.mp hr with rfl | hr
    · exact le_rfl
    · exact ((ascend_next h hi).1 r hr).le
  · rw [stretch_of_not_lt hi] at hr
    cases hr

/-- Before the row that comes next nothing is found. -/
theorem lookup_stretch_of_lt (hr : r < A.rowAt i) : (A.stretch i iend).lookup r = none :=
  lookup_eq_none_of_notMem fun hmem => (rowAt_le_of_mem h hmem).not_gt hr

omit h in
theorem lookup_stretch_of_ne (hi : i < iend) (hr : r ≠ A.rowAt i) :
    (A.stretch i iend).lookup r = (A.stretch (i + 1) iend).lookup r := by
  rw [stretch_of_lt hi, lookup_cons_of_ne hr]

omit h in
theorem lookup_stretch_rowAt (hi : i < iend) : (A.stretch i iend).lookup (A.rowAt i) = some (A.valueAt i) := by
  rw [stretch_of_lt hi, List.lookup_cons_self]

end Ascend

/-! ## Merging -/

/-- The rows are those of both stretches. -/
theorem mem_rows_mergeSlots {r : Nat} : r ∈ (mergeSlots A B i iend j jend).map Prod.fst ↔
    r ∈ (A.stretch i iend).map Prod.fst ∨ r ∈ (B.stretch j jend).map Prod.fst := by
  fun_induction mergeSlots A B i iend j jend with
  | case1 i j hi hj hlt ih =>
      rw [stretch_of_lt hi, List.map_cons, List.map_cons, List.mem_cons, List.mem_cons, ih, or_assoc]
  | case2 i j hi hj _ hlt ih =>
      rw [stretch_of_lt hj, List.map_cons, List.map_cons, List.mem_cons, List.mem_cons, ih, or_left_comm]
  | case3 i j hi hj hij hji ih =>
      have heq : B.rowAt j = A.rowAt i := le_antisymm (not_lt.mp hij) (not_lt.mp hji)
      rw [stretch_of_lt hi, stretch_of_lt hj, List.map_cons, List.map_cons, List.map_cons, List.mem_cons, List.mem_cons,
        List.mem_cons, ih, heq, or_or_distrib_left]
  | case4 i j hi hj ih =>
      rw [stretch_of_lt hi, List.map_cons, List.map_cons, List.mem_cons, List.mem_cons, ih, or_assoc]
  | case5 i j hi hj ih =>
      rw [stretch_of_lt hj, List.map_cons, List.map_cons, List.mem_cons, List.mem_cons, ih, or_left_comm]
  | case6 i j hi hj => rw [stretch_of_not_lt hi, stretch_of_not_lt hj]; simp

/-- A row before all that are left comes first. -/
theorem ascend_cons_mergeSlots {x : Nat} {v : T} (hA : ∀ r ∈ (A.stretch i iend).map Prod.fst, x < r)
    (hB : ∀ r ∈ (B.stretch j jend).map Prod.fst, x < r) (h : Ascend (mergeSlots A B i iend j jend)) :
    Ascend ((x, v) :: mergeSlots A B i iend j jend) :=
  List.pairwise_cons.mpr ⟨fun r hr => (mem_rows_mergeSlots.mp hr).elim (hA r) (hB r), h⟩

theorem ascend_mergeSlots (hA : Ascend (A.stretch i iend)) (hB : Ascend (B.stretch j jend)) :
    Ascend (mergeSlots A B i iend j jend) := by
  fun_induction mergeSlots A B i iend j jend with
  | case1 i j hi hj hlt ih =>
      obtain ⟨hnext, hA'⟩ := ascend_next hA hi
      exact ascend_cons_mergeSlots hnext (fun r hr => hlt.trans_le (rowAt_le_of_mem hB hr)) (ih hA' hB)
  | case2 i j hi hj _ hlt ih =>
      obtain ⟨hnext, hB'⟩ := ascend_next hB hj
      exact ascend_cons_mergeSlots (fun r hr => hlt.trans_le (rowAt_le_of_mem hA hr)) hnext (ih hA hB')
  | case3 i j hi hj hij hji ih =>
      have heq : A.rowAt i = B.rowAt j := le_antisymm (not_lt.mp hji) (not_lt.mp hij)
      obtain ⟨hnext, hA'⟩ := ascend_next hA hi
      obtain ⟨hnext', hB'⟩ := ascend_next hB hj
      exact ascend_cons_mergeSlots hnext (fun r hr => heq.trans_lt (hnext' r hr)) (ih hA' hB')
  | case4 i j hi hj ih =>
      obtain ⟨hnext, hA'⟩ := ascend_next hA hi
      exact ascend_cons_mergeSlots hnext (by simp [stretch_of_not_lt hj]) (ih hA' hB)
  | case5 i j hi hj ih =>
      obtain ⟨hnext, hB'⟩ := ascend_next hB hj
      exact ascend_cons_mergeSlots (by simp [stretch_of_not_lt hi]) hnext (ih hA hB')
  | case6 i j hi hj => exact .nil

/-- At each row the merged entries hold what the stretches hold, added if both hold something. -/
theorem lookup_mergeSlots (hA : Ascend (A.stretch i iend)) (hB : Ascend (B.stretch j jend)) (r : Nat) :
    (mergeSlots A B i iend j jend).lookup r =
      Option.merge (· + ·) ((A.stretch i iend).lookup r) ((B.stretch j jend).lookup r) := by
  fun_induction mergeSlots A B i iend j jend with
  | case1 i j hi hj hlt ih =>
      by_cases hr : r = A.rowAt i
      · subst hr
        rw [List.lookup_cons_self, lookup_stretch_rowAt hi, lookup_stretch_of_lt hB hlt]
        rfl
      · rw [lookup_cons_of_ne hr, lookup_stretch_of_ne hi hr, ih (ascend_next hA hi).2 hB]
  | case2 i j hi hj _ hlt ih =>
      by_cases hr : r = B.rowAt j
      · subst hr
        rw [List.lookup_cons_self, lookup_stretch_rowAt hj, lookup_stretch_of_lt hA hlt]
        rfl
      · rw [lookup_cons_of_ne hr, lookup_stretch_of_ne hj hr, ih hA (ascend_next hB hj).2]
  | case3 i j hi hj hij hji ih =>
      have heq : A.rowAt i = B.rowAt j := le_antisymm (not_lt.mp hji) (not_lt.mp hij)
      by_cases hr : r = A.rowAt i
      · subst hr
        rw [List.lookup_cons_self, lookup_stretch_rowAt hi, heq, lookup_stretch_rowAt hj]
        rfl
      · rw [lookup_cons_of_ne hr, lookup_stretch_of_ne hi hr, lookup_stretch_of_ne hj (heq ▸ hr),
          ih (ascend_next hA hi).2 (ascend_next hB hj).2]
  | case4 i j hi hj ih =>
      by_cases hr : r = A.rowAt i
      · subst hr
        rw [List.lookup_cons_self, lookup_stretch_rowAt hi, stretch_of_not_lt hj]
        rfl
      · rw [lookup_cons_of_ne hr, lookup_stretch_of_ne hi hr, ih (ascend_next hA hi).2 hB]
  | case5 i j hi hj ih =>
      by_cases hr : r = B.rowAt j
      · subst hr
        rw [List.lookup_cons_self, lookup_stretch_rowAt hj, stretch_of_not_lt hi]
        rfl
      · rw [lookup_cons_of_ne hr, lookup_stretch_of_ne hj hr, ih hA (ascend_next hB hj).2]
  | case6 i j hi hj => rw [stretch_of_not_lt hi, stretch_of_not_lt hj]; rfl

/-! ## Sums -/

theorem cols_merged (A B : SparseMatrix T) : (merged A B).cols = A.cols := by simp [merged, ofColumns]

theorem column_merged {c : Nat} (hc : c < A.cols) :
    (merged A B).column c = mergeSlots A B (A.first c) (A.stop c) (B.first c) (B.stop c) := by
  rw [merged, column_ofColumns (by simpa using hc), List.getElem_map, List.getElem_range]

omit [Scalar T] in
theorem Layout.walkable (h : Layout A) : A.walkable = true := by
  rw [SparseMatrix.walkable, h.slots_inside, h.size_colPtr, decide_eq_true (Nat.lt_succ_self _)]
  rfl

section Merged

variable (hA : WellFormed A) (hB : WellFormed B) (hsize : A.size = B.size)

include hA hB hsize

theorem wellFormed_merged : WellFormed (merged A B) := by
  obtain ⟨hrows, hcols⟩ := Prod.mk.inj hsize
  refine wellFormed_ofColumns (fun l hl e he => ?_) fun l hl => ?_
  · obtain ⟨c, hc, rfl⟩ := List.mem_map.mp hl
    rw [List.mem_range] at hc
    rcases mem_rows_mergeSlots.mp (List.mem_map_of_mem he) with hr | hr
    · obtain ⟨e', he', heq⟩ := List.mem_map.mp hr
      exact heq ▸ hA.lt_of_mem_column hc he'
    · obtain ⟨e', he', heq⟩ := List.mem_map.mp hr
      exact heq ▸ hrows.trans_gt (hB.lt_of_mem_column (hcols ▸ hc) he')
  · obtain ⟨c, hc, rfl⟩ := List.mem_map.mp hl
    rw [List.mem_range] at hc
    exact ascend_mergeSlots (hA.ascend_column hc) (hB.ascend_column (hcols ▸ hc))

theorem lookup_merged {c : Nat} (hc : c < A.cols) (r : Nat) :
    ((merged A B).column c).lookup r = Option.merge (· + ·) ((A.column c).lookup r) ((B.column c).lookup r) := by
  rw [column_merged hc, column_eq_stretch A, column_eq_stretch B]
  exact lookup_mergeSlots (hA.ascend_column hc) (hB.ascend_column ((Prod.mk.inj hsize).2 ▸ hc)) r

theorem merged_comm (hcomm : ∀ a b : T, a + b = b + a) : merged B A = merged A B := by
  refine (wellFormed_merged hB hA hsize.symm).ext_lookup (wellFormed_merged hA hB hsize) ?_ fun c hc r _ => ?_
  · exact Prod.ext (Prod.mk.inj hsize.symm).1 ((cols_merged B A).trans ((Prod.mk.inj hsize.symm).2.trans (cols_merged A B).symm))
  · rw [cols_merged] at hc
    rw [lookup_merged hA hB hsize hc, lookup_merged hB hA hsize.symm ((Prod.mk.inj hsize).2 ▸ hc)]
    have : Std.Commutative fun a b : T => a + b := ⟨hcomm⟩
    exact Std.Commutative.comm _ _

theorem add?_eq : add? A B = some (.ok (merged A B)) := by
  rw [add?, hA.walkable, hB.walkable, Bool.and_self, Bool.or_true, if_pos rfl, add, if_neg (not_not.mpr hsize)]

end Merged

/-- The sum of two well formed matrices is refused exactly if their sizes differ. Otherwise it passes every check of the
format and stores what one of them stores, and the sum of the values, be it zero, where both store one. If the numbers may
be added in either order, so may the matrices. -/
theorem add?_merges (hA : WellFormed A) (hB : WellFormed B) :
    ((∃ e, add? A B = some (.error e)) ↔ A.size ≠ B.size) ∧
      (A.size = B.size → ∃ C, add? A B = some (.ok C) ∧ C.size = A.size ∧
        C.check = (if C.values.all Scalar.isFinite then .ok () else .error .nonFiniteValue) ∧
        (∀ r < A.rows, ∀ c < A.cols, ∃ a b, A.get? r c = some a ∧ B.get? r c = some b ∧
          C.get? r c = some (Option.merge (· + ·) a b)) ∧
        ((∀ a b : T, a + b = b + a) → add? B A = some (.ok C))) := by
  refine ⟨⟨?_, fun hne => ?_⟩, fun hsize => ?_⟩
  · rintro ⟨e, he⟩ hsize
    rw [add?_eq hA hB hsize] at he
    cases he
  · rw [add?, hA.walkable, hB.walkable, Bool.and_self, Bool.or_true, if_pos rfl, add, if_pos hne]
    exact ⟨_, rfl⟩
  · have hC := wellFormed_merged hA hB hsize
    obtain ⟨hrows, hcols⟩ := Prod.mk.inj hsize
    refine ⟨merged A B, add?_eq hA hB hsize, Prod.ext rfl (cols_merged A B), hC.check_eq, fun r hr c hc => ?_,
      fun hcomm => ?_⟩
    · refine ⟨_, _, hA.get?_eq hr hc, hB.get?_eq (hrows ▸ hr) (hcols ▸ hc), ?_⟩
      rw [hC.get?_eq hr (hc.trans_eq (cols_merged A B).symm), lookup_merged hA hB hsize hc]
    · rw [add?_eq hB hA hsize.symm, merged_comm hA hB hsize hcomm]

/-- Two matrices of fractions that cancel each other in one place. -/
def summand : SparseMatrix ℚ :=
  { rows := 3, cols := 2, colPtr := #[0, 2, 3], rowIdx := #[0, 2, 1], values := #[1, 2, 3] }

def otherSummand : SparseMatrix ℚ :=
  { rows := 3, cols := 2, colPtr := #[0, 2, 2], rowIdx := #[1, 2], values := #[5, -2] }

theorem add?_merges_cancelled :
    (WellFormed summand ∧ WellFormed otherSummand ∧ summand.size = otherSummand.size ∧ ∀ a b : ℚ, a + b = b + a) ∧
      ∃ C, add? summand otherSummand = some (.ok C) ∧ C.get? 2 0 = some (some 0) ∧ C.get? 1 0 = some (some 5) ∧
        C.get? 0 1 = some none ∧ add? otherSummand summand = some (.ok C) := by
  have hA : WellFormed summand := wellFormed_of_check (by decide +kernel)
  have hB : WellFormed otherSummand := wellFormed_of_check (by decide +kernel)
  have hcomm : ∀ a b : ℚ, a + b = b + a := add_comm
  obtain ⟨C, hC, -, -, hget, hsame⟩ := (add?_merges hA hB).2 rfl
  have hsum {r c : Nat} {a b : Option ℚ} (hr : r < 3) (hc : c < 2) (ha : summand.get? r c = some a)
      (hb : otherSummand.get? r c = some b) : C.get? r c = some (Option.merge (· + ·) a b) := by
    obtain ⟨a', b', ha', hb', hab⟩ := hget r hr c hc
    obtain rfl := Option.some.inj (ha.symm.trans ha')
    obtain rfl := Option.some.inj (hb.symm.trans hb')
    exact hab
  refine ⟨⟨hA, hB, rfl, hcomm⟩, C, hC, ?_, ?_, ?_, hsame hcomm⟩
  · refine (hsum (a := some 2) (b := some (-2)) (by decide) (by decide) ?_ ?_).trans ?_ <;> decide +kernel
  · refine (hsum (a := none) (b := some 5) (by decide) (by decide) ?_ ?_).trans ?_ <;> decide +kernel
  · refine (hsum (a := none) (b := none) (by decide) (by decide) ?_ ?_).trans ?_ <;> decide +kernel

end AugLag.SparseMatrix
