import AugLag.Proofs.Checked.Sparse

/-!
# Defects of sparse arrays

The arrays given as a sparse matrix may be anything, of any lengths and with any pointers and rows in them. The check of
their format goes through five kinds of defects. It slices and indexes only where an earlier kind has been ruled out, so
that it answers in every case, and what it reports is the first defect in its order (`check_first_defect`).
-/

namespace AugLag

/-- The place of a defect in the order of the check. -/
def SparseFormatError.rank : SparseFormatError → Nat
  | .incompatibleDimension => 0
  | .badColumnPointers => 1
  | .badRowIndex => 2
  | .badRowOrdering => 3
  | .nonFiniteValue => 4

namespace SparseMatrix

variable {T : Type} [Scalar T] {M : SparseMatrix T}

/-- The arrays do not have a defect, whatever else is wrong with them. -/
def Lacks (M : SparseMatrix T) : SparseFormatError → Prop
  | .incompatibleDimension =>
      M.colPtr.size = M.cols + 1 ∧ M.rowIdx.size = M.values.size ∧ M.colPtr[M.cols]? = some M.values.size
  | .badColumnPointers => M.colPtr[0]? = some 0 ∧ M.colPtr.toList.Pairwise (· ≤ ·)
  | .badRowIndex => ∀ r ∈ M.rowIdx, r < M.rows
  | .badRowOrdering => ∀ j a b, M.colPtr[j]? = some a → M.colPtr[j + 1]? = some b →
      (M.rowIdx.extract a b).toList.Pairwise (· < ·)
  | .nonFiniteValue => ∀ v ∈ M.values, Scalar.isFinite v = true

/-! ## Single checks -/

theorem lengthsAgree_iff : M.lengthsAgree = true ↔ M.Lacks .incompatibleDimension := by
  simp only [lengthsAgree, Lacks, Bool.and_eq_true, beq_iff_eq, and_assoc]
  refine and_congr_right fun hsize => and_congr_right fun _ => ?_
  rw [nnz, Checked.get_eq (show M.cols < M.colPtr.size by omega) 0, Option.some_inj]

theorem pointersAscend_iff (h : M.Lacks .incompatibleDimension) :
    M.pointersAscend = true ↔ M.Lacks .badColumnPointers := by
  obtain ⟨hsize, -⟩ := h
  simp only [pointersAscend, Lacks, Bool.and_eq_true, beq_iff_eq]
  refine and_congr ?_ ?_
  · rw [first, Checked.get_eq (show 0 < M.colPtr.size by omega) 0, Option.some_inj]
  · rw [chained_iff_isChain, ← List.isChain_iff_pairwise]
    simp only [decide_eq_true_eq]

theorem rowsInside_iff : M.rowsInside = true ↔ M.Lacks .badRowIndex := by
  rw [rowsInside, Array.all_eq_true_iff_forall_mem]
  simp only [decide_eq_true_eq, Lacks]

omit [Scalar T] in
/-- A column is a stretch of the row indices. -/
theorem map_rowAt_slots (h : Layout M) {j : Nat} (hj : j < M.cols) :
    (M.slots j).map M.rowAt = (M.rowIdx.extract (M.first j) (M.stop j)).toList := by
  have hstop := (h.stop_le_size hj).trans_eq h.size_rowIdx.symm
  refine List.ext_getElem ?_ fun t ht ht' => ?_
  · simp only [slots, List.length_map, List.length_range', Array.length_toList, Array.size_extract, min_eq_left hstop]
  · have hlt : M.first j + t < M.rowIdx.size := by
      simp [slots] at ht
      omega
    simp [slots, rowAt, Array.getD_eq_getD_getElem?, hlt]

theorem rowsAscend_iff (h : Layout M) : M.rowsAscend = true ↔ M.Lacks .badRowOrdering := by
  have hcolumn : ∀ j < M.cols, chained (fun a b => decide (a < b)) ((M.slots j).map M.rowAt) = true ↔
      (M.rowIdx.extract (M.first j) (M.stop j)).toList.Pairwise (· < ·) := by
    intro j hj
    rw [chained_iff_isChain, map_rowAt_slots h hj, ← List.isChain_iff_pairwise]
    simp only [decide_eq_true_eq]
  simp only [rowsAscend, Lacks, List.all_eq_true, List.mem_range]
  constructor
  · intro hall j a b ha hb
    have hj : j < M.cols := by
      have hlt := (Array.getElem?_eq_some_iff.mp hb).1
      rw [h.size_colPtr] at hlt
      omega
    rw [Checked.first_eq h hj.le, Option.some_inj] at ha
    rw [Checked.stop_eq h hj, Option.some_inj] at hb
    subst ha hb
    exact (hcolumn j hj).mp (hall j hj)
  · intro hall j hj
    exact (hcolumn j hj).mpr (hall j _ _ (Checked.first_eq h hj.le) (Checked.stop_eq h hj))

theorem allFinite_iff : M.values.all Scalar.isFinite = true ↔ M.Lacks .nonFiniteValue :=
  Array.all_eq_true_iff_forall_mem

/-! ## The order of the checks -/

/-- A defect that the arrays have, while they have none of those that are looked for before it. -/
structure FirstDefect (M : SparseMatrix T) (e : SparseFormatError) : Prop where
  present : ¬M.Lacks e
  before : ∀ e', e'.rank < e.rank → M.Lacks e'

/-- Of two defects one comes first. -/
theorem FirstDefect.unique {e e' : SparseFormatError} (h : M.FirstDefect e) (h' : M.FirstDefect e') : e = e' := by
  rcases Nat.lt_trichotomy e.rank e'.rank with hlt | heq | hgt
  · exact absurd (h'.before e hlt) h.present
  · cases e <;> cases e' <;> first | rfl | cases heq
  · exact absurd (h.before e' hgt) h'.present

/-- Either the arrays lack all defects and pass, or the first one is reported. -/
theorem check_cases (M : SparseMatrix T) :
    (M.check = .ok () ∧ ∀ e, M.Lacks e) ∨ ∃ e, M.check = .error e ∧ M.FirstDefect e := by
  unfold check
  -- each check that passes rules out one kind of defect, and the next one may rely on that
  by_cases hlen : M.lengthsAgree = true
  · have hlengths := lengthsAgree_iff.mp hlen
    by_cases hptr : M.pointersAscend = true
    · have hpointers := (pointersAscend_iff hlengths).mp hptr
      have hlayout := layout_of_checks hlen hptr
      by_cases hin : M.rowsInside = true
      · have hrows := rowsInside_iff.mp hin
        by_cases hasc : M.rowsAscend = true
        · have hascend := (rowsAscend_iff hlayout).mp hasc
          by_cases hall : M.values.all Scalar.isFinite = true
          · have hfinite := allFinite_iff.mp hall
            refine .inl ⟨by simp [hlen, hptr, hin, hasc, hall], fun e => ?_⟩
            cases e <;> assumption
          · refine .inr ⟨.nonFiniteValue, by simp [hlen, hptr, hin, hasc, hall],
              fun hlacks => hall (allFinite_iff.mpr hlacks), fun e he => ?_⟩
            cases e <;> first | assumption | exact absurd he (by decide)
        · refine .inr ⟨.badRowOrdering, by simp [hlen, hptr, hin, hasc],
            fun hlacks => hasc ((rowsAscend_iff hlayout).mpr hlacks), fun e he => ?_⟩
          cases e <;> first | assumption | exact absurd he (by decide)
      · refine .inr ⟨.badRowIndex, by simp [hlen, hptr, hin],
          fun hlacks => hin (rowsInside_iff.mpr hlacks), fun e he => ?_⟩
        cases e <;> first | assumption | exact absurd he (by decide)
    · refine .inr ⟨.badColumnPointers, by simp [hlen, hptr],
        fun hlacks => hptr ((pointersAscend_iff hlengths).mpr hlacks), fun e he => ?_⟩
      cases e <;> first | assumption | exact absurd he (by decide)
  · refine .inr ⟨.incompatibleDimension, by simp [hlen], fun hlacks => hlen (lengthsAgree_iff.mpr hlacks),
      fun e he => absurd he (Nat.not_lt_zero _)⟩

theorem check_eq_ok_iff : M.check = .ok () ↔ ∀ e, M.Lacks e := by
  obtain ⟨hok, hlacks⟩ | ⟨e, herror, hfirst⟩ := check_cases M
  · exact iff_of_true hok hlacks
  · refine iff_of_false (fun hok => ?_) fun hlacks => hfirst.present (hlacks e)
    cases hok.symm.trans herror

theorem check_eq_error_iff {e : SparseFormatError} : M.check = .error e ↔ M.FirstDefect e := by
  obtain ⟨hok, hlacks⟩ | ⟨e', herror, hfirst⟩ := check_cases M
  · refine iff_of_false (fun herror => ?_) fun hfirst => hfirst.present (hlacks e)
    cases hok.symm.trans herror
  · rw [herror, Except.error.injEq]
    constructor
    · rintro rfl
      exact hfirst
    · exact hfirst.unique

/-- Arrays without defects describe a matrix with finite values and with ordered columns. -/
theorem forall_lacks_iff : (∀ e, M.Lacks e) ↔
    M.colPtr.size = M.cols + 1 ∧ M.colPtr[0]? = some 0 ∧ M.colPtr.toList.Pairwise (· ≤ ·) ∧
      M.colPtr[M.cols]? = some M.values.size ∧ M.rowIdx.size = M.values.size ∧ (∀ r ∈ M.rowIdx, r < M.rows) ∧
      (∀ j a b, M.colPtr[j]? = some a → M.colPtr[j + 1]? = some b →
        (M.rowIdx.extract a b).toList.Pairwise (· < ·)) ∧
      ∀ v ∈ M.values, Scalar.isFinite v = true := by
  constructor
  · intro hlacks
    obtain ⟨hsize, hrow, hlast⟩ := hlacks .incompatibleDimension
    obtain ⟨hzero, hascend⟩ := hlacks .badColumnPointers
    exact ⟨hsize, hzero, hascend, hlast, hrow, hlacks .badRowIndex, hlacks .badRowOrdering, hlacks .nonFiniteValue⟩
  · rintro ⟨hsize, hzero, hascend, hlast, hrow, hinside, horder, hfinite⟩ e
    cases e with
    | incompatibleDimension => exact ⟨hsize, hrow, hlast⟩
    | badColumnPointers => exact ⟨hzero, hascend⟩
    | badRowIndex => exact hinside
    | badRowOrdering => exact horder
    | nonFiniteValue => exact hfinite

/-- The check answers for any arrays. It passes exactly the arrays that describe a matrix with finite values, its columns
in order, and of several defects it reports the one that comes first. -/
theorem check_first_defect (M : SparseMatrix T) :
    Checked.check M = some M.check ∧
      (M.check = .ok () ↔
        M.colPtr.size = M.cols + 1 ∧ M.colPtr[0]? = some 0 ∧ M.colPtr.toList.Pairwise (· ≤ ·) ∧
        M.colPtr[M.cols]? = some M.values.size ∧ M.rowIdx.size = M.values.size ∧ (∀ r ∈ M.rowIdx, r < M.rows) ∧
        (∀ j a b, M.colPtr[j]? = some a → M.colPtr[j + 1]? = some b →
          (M.rowIdx.extract a b).toList.Pairwise (· < ·)) ∧
        ∀ v ∈ M.values, Scalar.isFinite v = true) ∧
      ∀ e, M.check = .error e ↔ ¬M.Lacks e ∧ ∀ e', e'.rank < e.rank → M.Lacks e' := by
  refine ⟨Checked.check_eq M, check_eq_ok_iff.trans forall_lacks_iff, fun e => ?_⟩
  rw [check_eq_error_iff]
  constructor
  · intro hfirst
    exact ⟨hfirst.present, hfirst.before⟩
  · rintro ⟨hpresent, hbefore⟩
    exact { present := hpresent, before := hbefore }

end SparseMatrix
end AugLag
