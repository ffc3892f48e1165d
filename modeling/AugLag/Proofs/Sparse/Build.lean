import AugLag.Proofs.Sparse.Entry

/-!
# Matrices from coordinates and from dense data

A sum of triplets stores each place once that a triplet names. Dense data keep their entries; the zeros among them are
not stored.
-/

namespace AugLag.SparseMatrix

/-! ## Sums of triplets -/

section Pattern

variable {T : Type} [Scalar T]

theorem mem_rows_combineRows (entries : List (Nat × T)) (i : Nat) :
    i ∈ (combineRows entries).map Prod.fst ↔ i ∈ entries.map Prod.fst := by
  fun_induction combineRows entries with
  | case1 a i b rest ih => simpa using ih
  | case2 i a j b rest hne ih =>
      rw [List.map_cons, List.mem_cons, ih, List.map_cons (l := (j, b) :: rest), List.mem_cons]
  | case3 short h => rfl

/-- Once the rows are in order, combining neighbours leaves no row twice. -/
theorem ascend_combineRows {entries : List (Nat × T)} (h : (entries.map Prod.fst).Pairwise (· ≤ ·)) :
    ((combineRows entries).map Prod.fst).Pairwise (· < ·) := by
  fun_induction combineRows entries with
  | case1 a i b rest ih =>
      simp only [List.map_cons, List.pairwise_cons] at h
      refine ih ?_
      simp only [List.map_cons, List.pairwise_cons]
      exact ⟨h.2.1, h.2.2⟩
  | case2 i a j b rest hne ih =>
      rw [List.map_cons, List.pairwise_cons] at h
      rw [List.map_cons, List.pairwise_cons]
      refine ⟨fun r hr => ?_, ih h.2⟩
      rw [mem_rows_combineRows] at hr
      have hij := h.1 j (by simp)
      have hjr : j ≤ r := by
        rcases List.mem_cons.mp hr with rfl | hr
        · exact le_rfl
        · exact (List.pairwise_cons.mp h.2).1 r hr
      show i < r
      omega
  | case3 short hshort =>
      match short, hshort with
      | [], _ => simp
      | [e], _ => simp
      | (i, a) :: (j, b) :: rest, hshort => exact absurd rfl (hshort i a j b rest)

section Sorted

omit [Scalar T]

theorem fstUpTo_trans (a b c : Nat × T) (hab : decide (a.1 ≤ b.1) = true) (hbc : decide (b.1 ≤ c.1) = true) :
    decide (a.1 ≤ c.1) = true :=
  decide_eq_true ((of_decide_eq_true hab).trans (of_decide_eq_true hbc))

theorem fstUpTo_total (a b : Nat × T) : (decide (a.1 ≤ b.1) || decide (b.1 ≤ a.1)) = true := by
  rw [Bool.or_eq_true, decide_eq_true_eq, decide_eq_true_eq]
  exact le_total _ _

theorem sorted_rows (entries : List (Nat × T)) :
    ((entries.mergeSort fun a b => a.1 ≤ b.1).map Prod.fst).Pairwise (· ≤ ·) :=
  List.pairwise_map.mpr ((List.pairwise_mergeSort fstUpTo_trans fstUpTo_total entries).imp of_decide_eq_true)

end Sorted

theorem ascend_gatherColumn (triplets : List (Triplet T)) (j : Nat) :
    ((gatherColumn triplets j).map Prod.fst).Pairwise (· < ·) :=
  ascend_combineRows (sorted_rows _)

/-- What holds of values and of their sums holds of all values of a sum of triplets. -/
theorem forall_gatherColumn {p : T → Prop} (hadd : ∀ a b, p a → p b → p (a + b)) {triplets : List (Triplet T)}
    (h : ∀ t ∈ triplets, p t.value) (j : Nat) : ∀ e ∈ gatherColumn triplets j, p e.2 := by
  have hcombine : ∀ entries : List (Nat × T), (∀ e ∈ entries, p e.2) → ∀ e ∈ combineRows entries, p e.2 := by
    intro entries
    fun_induction combineRows entries with
    | case1 a i b rest ih =>
        intro hall
        simp only [List.forall_mem_cons] at hall
        exact ih (List.forall_mem_cons.mpr ⟨hadd _ _ hall.1 hall.2.1, hall.2.2⟩)
    | case2 i a j b rest hne ih =>
        intro hall
        exact List.forall_mem_cons.mpr ⟨(List.forall_mem_cons.mp hall).1, ih (List.forall_mem_cons.mp hall).2⟩
    | case3 short hshort => exact id
  refine hcombine _ fun e he => ?_
  obtain ⟨t, ht, rfl⟩ := List.mem_map.mp (List.mem_mergeSort.mp he)
  exact h t (List.mem_of_mem_filter ht)

theorem mem_rows_gatherColumn (triplets : List (Triplet T)) (i j : Nat) :
    i ∈ (gatherColumn triplets j).map Prod.fst ↔ ∃ t ∈ triplets, t.row = i ∧ t.col = j := by
  rw [gatherColumn, mem_rows_combineRows, ((List.mergeSort_perm _ _).map Prod.fst).mem_iff]
  simp only [List.map_map, List.mem_map, List.mem_filter, beq_iff_eq, Function.comp_apply]
  constructor
  · rintro ⟨t, ⟨ht, hcol⟩, hrow⟩
    exact ⟨t, ht, hrow, hcol⟩
  · rintro ⟨t, ht, hrow, hcol⟩
    exact ⟨t, ⟨ht, hcol⟩, hrow⟩

theorem cols_sumTriplets (rows cols : Nat) (triplets : List (Triplet T)) :
    (sumTriplets rows cols triplets).cols = cols := by
  simp [sumTriplets, ofColumns]

theorem column_sumTriplets {rows cols : Nat} {triplets : List (Triplet T)} {j : Nat} (hj : j < cols) :
    (sumTriplets rows cols triplets).column j = gatherColumn triplets j := by
  rw [sumTriplets, column_ofColumns (by simpa using hj), List.getElem_map, List.getElem_range]

theorem wellFormed_sumTriplets {rows cols : Nat} {triplets : List (Triplet T)}
    (h : ∀ t ∈ triplets, t.row < rows) : WellFormed (sumTriplets rows cols triplets) := by
  refine wellFormed_ofColumns (fun c hc e he => ?_) fun c hc => ?_
  · obtain ⟨j, -, rfl⟩ := List.mem_map.mp hc
    obtain ⟨t, ht, hrow, -⟩ := (mem_rows_gatherColumn triplets e.1 j).mp (List.mem_map_of_mem he)
    exact hrow ▸ h t ht
  · obtain ⟨j, -, rfl⟩ := List.mem_map.mp hc
    exact ascend_gatherColumn triplets j

/-- The places that are stored are those that a triplet names. -/
theorem exists_slot_sumTriplets {rows cols : Nat} {triplets : List (Triplet T)} {i j : Nat} (hj : j < cols) :
    (∃ k ∈ (sumTriplets rows cols triplets).slots j, (sumTriplets rows cols triplets).rowAt k = i) ↔
      ∃ t ∈ triplets, t.row = i ∧ t.col = j := by
  have hcol : (sumTriplets rows cols triplets).column j = _ := column_sumTriplets hj
  rw [← mem_rows_gatherColumn, ← hcol, column, List.map_map, List.mem_map]
  rfl

/-! ## Places of dense data -/

theorem map_fst_range_zip {α : Type} (l : List α) :
    ((List.range l.length).zip l).map Prod.fst = List.range l.length :=
  List.map_fst_zip (by simp)

theorem ascend_nonzeros (column : List T) :
    ((nonzeros column).map Prod.fst).Pairwise (· < ·) ∧ ∀ e ∈ nonzeros column, e.1 < column.length := by
  have hasc : (((List.range column.length).zip column).map Prod.fst).Pairwise (· < ·) := by
    rw [map_fst_range_zip]
    exact List.pairwise_lt_range
  refine ⟨hasc.sublist (List.filter_sublist.map _), fun e he => ?_⟩
  have := List.mem_map_of_mem (f := Prod.fst) (List.mem_of_mem_filter he)
  rwa [map_fst_range_zip, List.mem_range] at this

theorem cols_ofDense (rows cols : Nat) (data : Array T) : (ofDense rows cols data).cols = cols := by
  simp [ofDense, ofColumns]

theorem wellFormed_ofDense {rows cols : Nat} {data : Array T} (hsize : data.size = rows * cols) :
    WellFormed (ofDense rows cols data) := by
  refine wellFormed_ofColumns (fun c hc e he => ?_) fun c hc => ?_
  · obtain ⟨j, hj, rfl⟩ := List.mem_map.mp hc
    have := (ascend_nonzeros _).2 e he
    have hj' : (j + 1) * rows ≤ data.size := by
      rw [hsize, Nat.mul_comm rows]
      exact Nat.mul_le_mul_right rows (List.mem_range.mp hj)
    rw [Array.length_toList, Array.size_extract, min_eq_left hj', Nat.add_mul] at this
    omega
  · obtain ⟨j, -, rfl⟩ := List.mem_map.mp hc
    exact (ascend_nonzeros _).1

/-! ### Reading dense data piece by piece -/

theorem pieces_eq {α : Type} {size count : Nat} {l : List α} (h : l.length = count * (size + 1)) :
    pieces size l = (List.range count).map fun j => l.extract (j * (size + 1)) ((j + 1) * (size + 1)) := by
  induction count generalizing l with
  | zero =>
      rw [Nat.zero_mul, List.length_eq_zero_iff] at h
      subst h
      rw [pieces, List.range_zero, List.map_nil]
  | succ count ih =>
      cases l with
      | nil => simp at h
      | cons a rest =>
          have hrest : (rest.drop size).length = count * (size + 1) := by
            rw [List.length_drop]
            rw [List.length_cons, Nat.succ_mul] at h
            omega
          have hstart (j : Nat) : (j + 1) * (size + 1) = size + j * (size + 1) + 1 := by ring
          have hlength (j : Nat) : (j + 1) * (size + 1) - j * (size + 1) = size + 1 := by
            rw [Nat.succ_mul, Nat.add_sub_cancel_left]
          simp only [List.extract_eq_take_drop, hlength] at ih ⊢
          rw [pieces, ih hrest, List.range_succ_eq_map, List.map_cons, List.map_map, Nat.zero_mul, List.drop_zero,
            List.take_succ_cons]
          refine congrArg (List.cons _) (List.map_congr_left fun j _ => ?_)
          rw [Function.comp_apply, Nat.succ_eq_add_one, hstart, List.drop_succ_cons, List.drop_drop]

/-- The pieces of dense data, and behind them the columns of a matrix without rows, are the columns. -/
theorem pieces_append_nil {rows cols : Nat} {data : Array T} (hsize : data.size = rows * cols) :
    ((pieces (rows - 1) data.toList).take cols).map nonzeros ++
        List.replicate (cols - (((pieces (rows - 1) data.toList).take cols).map nonzeros).length) [] =
      (List.range cols).map fun j => nonzeros (data.extract (j * rows) ((j + 1) * rows)).toList := by
  cases rows with
  | zero =>
      obtain rfl : data = #[] := Array.eq_empty_of_size_eq_zero (hsize.trans (Nat.zero_mul cols))
      rw [Array.toList_empty, pieces, List.take_nil, List.map_nil, List.nil_append, List.length_nil, Nat.sub_zero]
      exact (List.eq_replicate_iff.mpr ⟨by simp, by simp [nonzeros]⟩).symm
  | succ size =>
      have hpieces := pieces_eq (l := data.toList) (hsize.trans (Nat.mul_comm _ _))
      have htake : (pieces size data.toList).take cols = pieces size data.toList :=
        List.take_of_length_le (by rw [hpieces]; simp)
      rw [Nat.add_sub_cancel, htake, hpieces]
      simp [Array.toList_extract]

omit [Scalar T] in
theorem ofColumns_append_nil (rows : Nat) (columns : List (List (Nat × T))) (k : Nat) :
    ofColumns rows (columns ++ List.replicate k []) =
      { ofColumns rows columns with
        cols := columns.length + k
        colPtr := (ofColumns rows columns).colPtr ++ Array.replicate k (ofColumns rows columns).rowIdx.size } := by
  have hptr : (ofColumns rows (columns ++ List.replicate k [])).colPtr =
      (ofColumns rows columns).colPtr ++ Array.replicate k (ofColumns rows columns).rowIdx.size := by
    rw [colPtr_ofColumns, colPtr_ofColumns, List.map_append, List.map_replicate, List.length_nil, prefixSums_append_zeros]
    simp [ofColumns, List.length_flatMap]
  rw [← hptr]
  simp [ofColumns]

/-- Reading dense data piece by piece makes the matrix of its nonzero entries, also if there are no rows or no columns. -/
theorem ofDense?_eq {rows cols : Nat} {data : Array T} (hsize : data.size = rows * cols) :
    ofDense? rows cols data = some (ofDense rows cols data) := by
  have hcolumns := pieces_append_nil hsize
  rw [ofDense?, if_pos hsize]
  generalize ((pieces (rows - 1) data.toList).take cols).map nonzeros = columns at hcolumns ⊢
  have hmissing : cols + 1 - (ofColumns rows columns).colPtr.size = cols - columns.length := by
    rw [(layout_ofColumns rows columns).size_colPtr]
    exact Nat.add_sub_add_right cols 1 columns.length
  refine Eq.trans ?_ ((wellFormed_ofDense hsize).ofArrays?_eq rfl (cols_ofDense rows cols data))
  rw [ofDense, ← hcolumns, ofColumns_append_nil, ← hmissing]
  rfl

theorem finite_ofDense {rows cols : Nat} {data : Array T} (h : data.all Scalar.isFinite = true) :
    (ofDense rows cols data).values.all Scalar.isFinite = true := by
  refine Array.all_eq_true_iff_forall_mem.mpr fun x hx => ?_
  simp only [ofDense, ofColumns, List.mem_toArray, List.mem_flatMap, List.mem_map, List.mem_range] at hx
  obtain ⟨-, ⟨j, -, rfl⟩, e, he, rfl⟩ := hx
  have hcolumn := (List.of_mem_zip (List.mem_of_mem_filter he)).2
  rw [Array.toList_extract, List.extract_eq_take_drop] at hcolumn
  have hdata := Array.mem_toList_iff.mp (List.mem_of_mem_drop (List.mem_of_mem_take hcolumn))
  exact Array.all_eq_true_iff_forall_mem.mp h _ hdata

end Pattern

variable {K : Type} [ExactScalar K]

/-! ## Dense data -/

theorem sumAt_filter_nonzero (entries : List (Nat × K)) (i : Nat) :
    sumAt i (entries.filter fun e => !(e.2 == 0)) = sumAt i entries := by
  induction entries with
  | nil => rfl
  | cons e entries ih =>
      by_cases he : e.2 = 0
      · rw [List.filter_cons_of_neg (by simp [he]), ih, sumAt_cons, he, ite_self, zero_add]
      · rw [List.filter_cons_of_pos (by simp [he]), sumAt_cons, sumAt_cons, ih]

theorem sumAt_nonzeros (column : List K) (i : Nat) : sumAt i (nonzeros column) = column.getD i 0 := by
  rw [nonzeros, sumAt_filter_nonzero]
  by_cases hi : i < column.length
  · have hmem : (i, column[i]) ∈ (List.range column.length).zip column :=
      List.mem_iff_getElem.mpr ⟨i, by simpa using hi, by simp⟩
    have hsum := sumAt_eq_of_mem (by rw [map_fst_range_zip]; exact List.nodup_range) hmem
    simpa [hi] using hsum
  · have hnone : sumAt i ((List.range column.length).zip column) = 0 := by
      refine sumAt_eq_zero fun e he heq => hi ?_
      have := List.mem_map_of_mem (f := Prod.fst) he
      rw [map_fst_range_zip, List.mem_range] at this
      omega
    rw [hnone]
    simp [hi]

theorem entry_ofDense {rows cols : Nat} {data : Array K} (hsize : data.size = rows * cols) {i j : Nat}
    (hi : i < rows) (hj : j < cols) : (ofDense rows cols data).entry i j = data.getD (j * rows + i) 0 := by
  have hj' : (j + 1) * rows ≤ data.size := by
    rw [hsize, Nat.mul_comm rows]
    exact Nat.mul_le_mul_right rows hj
  rw [ofDense, entry_ofColumns (by simpa using hj), List.getElem_map, List.getElem_range, sumAt_nonzeros]
  have hin : i < (j + 1) * rows - j * rows := by
    rw [Nat.add_mul]
    omega
  simp [hin, Array.getD_eq_getD_getElem?]

end AugLag.SparseMatrix
