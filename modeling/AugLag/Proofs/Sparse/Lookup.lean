import AugLag.Proofs.Sparse.Search

/-!
# What a matrix stores

Where no column holds a row twice, what is stored at a place is found by looking its row up among the entries of its
column. A well formed matrix is told by its size and by what it stores at each place (`WellFormed.ext_lookup`), so
that two ways to put a matrix together agree if they store the same.
-/

namespace AugLag

/-! ## Entries under distinct rows -/

section Entries

variable {T : Type} {l l' : List (Nat × T)} {i : Nat} {v : T}

theorem lookup_eq_none_of_notMem (h : i ∉ l.map Prod.fst) : l.lookup i = none := by
  refine List.lookup_eq_none_iff.mpr fun e he => bne_iff_ne.mpr ?_
  rintro rfl
  exact h (List.mem_map_of_mem he)

theorem lookup_cons_of_ne {j : Nat} {a : T} (h : i ≠ j) : ((j, a) :: l).lookup i = l.lookup i := by
  rw [List.lookup_cons, beq_eq_false_iff_ne.mpr h]

theorem lookup_eq_some_iff_mem (hd : (l.map Prod.fst).Nodup) : l.lookup i = some v ↔ (i, v) ∈ l := by
  induction l with
  | nil => simp
  | cons e l ih =>
      obtain ⟨j, a⟩ := e
      rw [List.map_cons, List.nodup_cons] at hd
      by_cases hij : i = j
      · subst hij
        rw [List.lookup_cons_self, Option.some_inj, List.mem_cons]
        refine ⟨fun heq => .inl (heq ▸ rfl), fun hmem => ?_⟩
        rcases hmem with heq | hmem
        · exact (Prod.mk.inj heq).2.symm
        · exact absurd (List.mem_map_of_mem hmem) hd.1
      · rw [lookup_cons_of_ne hij, ih hd.2, List.mem_cons]
        refine ⟨.inr, fun hmem => hmem.resolve_left fun heq => hij (Prod.mk.inj heq).1⟩

/-- Entries in the order of their rows are told by what is found among them. -/
theorem eq_of_lookup_eq (hl : (l.map Prod.fst).Pairwise (· < ·)) (hl' : (l'.map Prod.fst).Pairwise (· < ·))
    (h : ∀ i, l.lookup i = l'.lookup i) : l = l' := by
  have hd : (l.map Prod.fst).Nodup := hl.imp fun hlt => hlt.ne
  have hd' : (l'.map Prod.fst).Nodup := hl'.imp fun hlt => hlt.ne
  have hperm : l.Perm l' := by
    refine (List.perm_ext_iff_of_nodup (.of_map _ hd) (.of_map _ hd')).mpr fun e => ?_
    rw [← lookup_eq_some_iff_mem hd, ← lookup_eq_some_iff_mem hd', h]
  refine hperm.eq_of_pairwise (fun a b _ _ hab hba => ?_) (List.pairwise_map.mp hl) (List.pairwise_map.mp hl')
  exact absurd hab hba.asymm

end Entries

namespace SparseMatrix

variable {T : Type} [Scalar T] {M N : SparseMatrix T} {i j : Nat}

/-! ## Columns -/

theorem WellFormed.ascend_column (h : WellFormed M) (hj : j < M.cols) : ((M.column j).map Prod.fst).Pairwise (· < ·) := by
  rw [map_fst_column]
  exact h.rows_ascend j hj

theorem Distinct.nodup_column (h : Distinct M) (hj : j < M.cols) : ((M.column j).map Prod.fst).Nodup := by
  rw [map_fst_column]
  exact h.nodup_rows j hj

/-- There are no entries behind the last column. -/
theorem Layout.column_of_le (h : Layout M) (hj : M.cols ≤ j) : M.column j = [] := by
  rw [column, h.slots_of_le hj, List.map_nil]

omit [Scalar T] in
/-- Every slot of a column is one of the rows and of the values. -/
theorem Layout.slots_inside (h : Layout M) :
    ((List.range M.cols).all fun j => (M.slots j).all fun k => k < M.rowIdx.size && k < M.values.size) = true := by
  simp only [List.all_eq_true, List.mem_range, Bool.and_eq_true, decide_eq_true_eq]
  exact fun j hj k hk => ⟨h.size_rowIdx.symm ▸ h.lt_size hj hk, h.lt_size hj hk⟩

theorem mem_column {v : T} : (i, v) ∈ M.column j ↔ ∃ k ∈ M.slots j, M.rowAt k = i ∧ M.valueAt k = v := by
  simp [column]

/-! ## Well formed matrices -/

theorem WellFormed.get_eq (h : WellFormed M) (hj : j < M.cols) : M.get i j = (M.column j).lookup i := by
  refine Option.ext fun v => ?_
  rw [lookup_eq_some_iff_mem (h.distinct.nodup_column hj), mem_column, get, Option.map_eq_some_iff]
  constructor
  · rintro ⟨k, hk, hv⟩
    obtain ⟨hmem, hrow⟩ := (h.findSlot_eq_some hj).mp hk
    exact ⟨k, hmem, hrow, hv⟩
  · rintro ⟨k, hmem, hrow, hv⟩
    exact ⟨k, (h.findSlot_eq_some hj).mpr ⟨hmem, hrow⟩, hv⟩

/-- Inside of a well formed matrix every place can be asked for. -/
theorem WellFormed.get?_eq (h : WellFormed M) (hi : i < M.rows) (hj : j < M.cols) :
    M.get? i j = some ((M.column j).lookup i) := by
  have hreadable : M.rowsReadable j = true := by
    have hstop := h.stop_le_size hj
    simp [rowsReadable, hasColumn, h.size_colPtr, h.first_le_stop j hj, h.size_rowIdx, hj, hstop]
  have hfound : (M.findSlot i j).all (· < M.values.size) = true := by
    rw [Option.all_eq_true]
    intro k hk
    exact decide_eq_true (h.lt_size hj ((h.findSlot_eq_some hj).mp hk).1)
  rw [get?, if_pos ⟨hi, hj, hreadable, hfound⟩, h.get_eq hj]

theorem WellFormed.lt_of_mem_column {v : T} (h : WellFormed M) (hj : j < M.cols) (hmem : (i, v) ∈ M.column j) :
    i < M.rows := by
  obtain ⟨k, hk, rfl, -⟩ := mem_column.mp hmem
  exact h.rowAt_lt k (h.lt_size hj hk)

/-- Well formed matrices of one size that store the same are the same. -/
theorem WellFormed.ext_lookup (h : WellFormed M) (h' : WellFormed N) (hsize : M.size = N.size)
    (hlookup : ∀ j < N.cols, ∀ i < N.rows, (M.column j).lookup i = (N.column j).lookup i) : M = N := by
  obtain ⟨hrows, hcols⟩ := Prod.mk.inj hsize
  refine h.toLayout.ext h'.toLayout hrows hcols fun j hj => ?_
  refine eq_of_lookup_eq (h.ascend_column (hcols ▸ hj)) (h'.ascend_column hj) fun i => ?_
  by_cases hi : i < N.rows
  · exact hlookup j hj i hi
  · -- neither of them has such a row
    have hnone {L : SparseMatrix T} (hL : WellFormed L) (hrows : L.rows = N.rows) (hcol : j < L.cols) :
        (L.column j).lookup i = none := by
      refine lookup_eq_none_of_notMem fun hmem => ?_
      obtain ⟨e, he, rfl⟩ := List.mem_map.mp hmem
      exact hi (hrows ▸ hL.lt_of_mem_column hcol he)
    rw [hnone h hrows (hcols ▸ hj), hnone h' rfl hj]

end SparseMatrix
end AugLag
