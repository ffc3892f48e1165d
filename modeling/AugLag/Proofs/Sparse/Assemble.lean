import AugLag.Proofs.Sparse.Triplets

/-!
# Triplets from outside

Three arrays are refused if their lengths differ or an index is outside of the matrix, and otherwise make a well formed
matrix that holds the sums of its triplets (`ofTriplets?_sums`). The one index that is not refused is the last word of the
machine, since one more than it is zero.
-/

namespace AugLag.SparseMatrix

variable {T : Type} {rows cols : Nat}

/-! ## Arrays put together -/

theorem nextIndex_eq {i : Nat} (h : i + 1 < UInt64.size) : nextIndex i = i + 1 := Nat.mod_eq_of_lt h

theorem accumulate_countColumns {entries : List (Triplet T)} (h : ∀ t ∈ entries, t.col + 1 < UInt64.size) :
    accumulate (countColumns cols entries) = starts Triplet.col entries cols := by
  refine congrArg accumulate (List.foldl_ext _ _ _ fun counts t ht => ?_)
  rw [nextIndex_eq (h t ht)]

/-- The columns of entries that are in the order of their columns. -/
def columnsOf (cols : Nat) (entries : List (Triplet T)) : List (List (Nat × T)) :=
  (List.range cols).map fun j => (entries.filter fun t => t.col = j).map fun t => (t.row, t.value)

theorem flatMap_columnsOf {α : Type} {entries : List (Triplet T)} (h : entries.Pairwise fun s t => s.col ≤ t.col)
    (c : Nat) (f : Nat × T → α) :
    ((columnsOf c entries).flatMap fun column => column.map f) =
      (entries.filter fun t => t.col < c).map fun t => f (t.row, t.value) := by
  rw [← flatMap_filter_col h, List.map_flatMap, columnsOf, List.flatMap_map]
  simp [Function.comp_def]

/-- Counted entries make the matrix of their columns. -/
theorem colPtr_columnsOf {entries : List (Triplet T)} (h : entries.Pairwise fun s t => s.col ≤ t.col) :
    (ofColumns rows (columnsOf cols entries)).colPtr = starts Triplet.col entries cols := by
  have hlen : (columnsOf cols entries).length = cols := by simp [columnsOf]
  have hsize : (ofColumns rows (columnsOf cols entries)).colPtr.size = cols + 1 := by
    rw [(layout_ofColumns rows _).size_colPtr]
    exact congrArg (· + 1) hlen
  refine array_ext_getD 0 (hsize.trans (size_starts _ _ _).symm) fun j hj => ?_
  have hj' : j ≤ cols := by omega
  have htake : (columnsOf cols entries).take j = columnsOf j entries := by
    rw [columnsOf, columnsOf, ← List.map_take, List.take_range, min_eq_left hj']
  have hcount := congrArg List.length (flatMap_columnsOf h j id)
  rw [List.length_map, ← List.countP_eq_length_filter] at hcount
  rw [getD_starts _ _ hj', ← hcount, List.length_flatMap]
  refine (first_ofColumns (by omega)).trans ?_
  rw [htake]
  simp

variable [Scalar T]

theorem sumTriplets_eq (rows cols : Nat) (triplets : List (Triplet T)) :
    sumTriplets rows cols triplets = ofColumns rows (columnsOf cols (mergePlaces triplets)) :=
  congrArg (ofColumns rows) (List.map_congr_left fun j _ => gatherColumn_eq triplets j)

/-- Where all columns are inside, merging and counting makes the sum of the triplets. -/
theorem assemble?_eq (rows : Nat) {triplets : List (Triplet T)}
    (h : ∀ t ∈ triplets, t.col < cols ∧ t.col + 1 < UInt64.size) :
    assemble? rows cols triplets = some (sumTriplets rows cols triplets) := by
  have hinside : ∀ t ∈ mergePlaces triplets, t.col < cols ∧ t.col + 1 < UInt64.size := by
    intro t ht
    obtain ⟨s, hs, -, hcol⟩ := exists_place_of_mem ht
    exact hcol ▸ h s hs
  have hsorted : (mergePlaces triplets).Pairwise fun s t => s.col ≤ t.col :=
    (ascend_mergePlaces triplets).imp fun hlt => Triplet.col_le_of_place hlt.le
  have hall : ((mergePlaces triplets).filter fun t => t.col < cols) = mergePlaces triplets :=
    List.filter_eq_self.mpr fun t ht => decide_eq_true (hinside t ht).1
  have hcounted : ((mergePlaces triplets).all fun t => nextIndex t.col ≤ cols) = true := by
    refine List.all_eq_true.mpr fun t ht => decide_eq_true ?_
    rw [nextIndex_eq (hinside t ht).2]
    exact (hinside t ht).1
  have hstretch {α : Type} (f : Nat × T → α) : ((mergePlaces triplets).map fun t => f (t.row, t.value)) =
      (columnsOf cols (mergePlaces triplets)).flatMap fun column => column.map f := by
    rw [flatMap_columnsOf hsorted, hall]
  have hrows : ((mergePlaces triplets).map Triplet.row).toArray = (sumTriplets rows cols triplets).rowIdx := by
    rw [sumTriplets_eq]
    exact congrArg List.toArray (hstretch Prod.fst)
  have hvalues : ((mergePlaces triplets).map Triplet.value).toArray = (sumTriplets rows cols triplets).values := by
    rw [sumTriplets_eq]
    exact congrArg List.toArray (hstretch Prod.snd)
  have hptr : accumulate (countColumns cols (mergePlaces triplets)) = (sumTriplets rows cols triplets).colPtr := by
    rw [accumulate_countColumns fun t ht => (hinside t ht).2, sumTriplets_eq, colPtr_columnsOf hsorted]
  rw [assemble?, if_pos hcounted, hptr, hrows, hvalues]
  exact (layout_ofColumns _ _).ofArrays?_eq rfl (cols_sumTriplets rows cols triplets)

/-! ## Sums of triplets -/

theorem lookup_sumTriplets {triplets : List (Triplet T)} (rows i : Nat) {j : Nat} (hj : j < cols) :
    ((sumTriplets rows cols triplets).column j).lookup i = leftSum (valuesAt triplets i j) := by
  rw [column_sumTriplets hj, lookup_gatherColumn]

/-- Of the order of the triplets only that of the values at each place matters. -/
theorem sumTriplets_congr (rows cols : Nat) {triplets triplets' : List (Triplet T)}
    (h : ∀ i j, valuesAt triplets' i j = valuesAt triplets i j) :
    sumTriplets rows cols triplets' = sumTriplets rows cols triplets := by
  refine congrArg (ofColumns rows) (List.map_congr_left fun j _ => ?_)
  refine eq_of_lookup_eq (ascend_gatherColumn _ j) (ascend_gatherColumn _ j) fun i => ?_
  rw [lookup_gatherColumn, lookup_gatherColumn, h]

/-! ## Arrays of triplets -/

section Arrays

omit [Scalar T]

theorem extent_le_iff {indices : Array Nat} (h : ∀ i ∈ indices, i + 1 < UInt64.size) {n : Nat} :
    extent indices ≤ n ↔ ∀ i ∈ indices, i < n := by
  simp only [← Array.mem_toList_iff] at h ⊢
  rw [extent]
  cases hmax : indices.toList.max? with
  | none =>
      rw [List.max?_eq_none_iff.mp hmax]
      simp
  | some largest =>
      have hmem := List.max?_mem hmax
      rw [Option.elim_some, nextIndex_eq (h largest hmem), Nat.succ_le_iff]
      refine ⟨fun hlt i hi => ?_, fun hall => hall largest hmem⟩
      exact ((List.max?_le_iff hmax).mp le_rfl i hi).trans_lt hlt

variable {rowIdx colIdx : Array Nat} {values : Array T}

theorem rows_ofArrays (hcols : colIdx.size = rowIdx.size) (hvalues : values.size = rowIdx.size) :
    (Triplet.ofArrays rowIdx colIdx values).map Triplet.row = rowIdx.toList := by
  rw [Triplet.ofArrays, List.map_map]
  exact List.map_fst_zip (by simp [hcols, hvalues])

theorem cols_ofArrays (hcols : colIdx.size = rowIdx.size) (hvalues : values.size = rowIdx.size) :
    (Triplet.ofArrays rowIdx colIdx values).map Triplet.col = colIdx.toList := by
  have hpairs : (rowIdx.toList.zip (colIdx.toList.zip values.toList)).map Prod.snd = colIdx.toList.zip values.toList :=
    List.map_snd_zip (by simp [hcols, hvalues])
  calc (Triplet.ofArrays rowIdx colIdx values).map Triplet.col
      = ((rowIdx.toList.zip (colIdx.toList.zip values.toList)).map Prod.snd).map Prod.fst := by
        rw [Triplet.ofArrays, List.map_map, List.map_map]
        rfl
    _ = colIdx.toList := by
        rw [hpairs]
        exact List.map_fst_zip (by simp [hcols, hvalues])

/-- What holds of all indices is what holds of the places of all triplets. -/
theorem forall_ofArrays_iff {p q : Nat → Prop} (hcols : colIdx.size = rowIdx.size) (hvalues : values.size = rowIdx.size) :
    (∀ t ∈ Triplet.ofArrays rowIdx colIdx values, p t.row ∧ q t.col) ↔ (∀ i ∈ rowIdx, p i) ∧ ∀ j ∈ colIdx, q j := by
  simp only [← Array.mem_toList_iff, ← rows_ofArrays hcols hvalues, ← cols_ofArrays hcols hvalues]
  rw [List.forall_mem_map, List.forall_mem_map, ← forall₂_and]

/-- Triplets that name the same values at each place name the same places. -/
theorem forall_of_valuesAt {triplets triplets' : List (Triplet T)} (h : ∀ i j, valuesAt triplets' i j = valuesAt triplets i j)
    {p q : Nat → Prop} (hp : ∀ t ∈ triplets, p t.row ∧ q t.col) : ∀ t ∈ triplets', p t.row ∧ q t.col := by
  intro t ht
  have hne : valuesAt triplets' t.row t.col ≠ [] := valuesAt_ne_nil_iff.mpr ⟨t, ht, rfl, rfl⟩
  rw [h] at hne
  obtain ⟨s, hs, hrow, hcol⟩ := valuesAt_ne_nil_iff.mp hne
  exact hrow ▸ hcol ▸ hp s hs

/-- The arrays have one length, and all indices are inside of the matrix. -/
def Fits (rows cols : Nat) (rowIdx colIdx : Array Nat) (values : Array T) : Prop :=
  (colIdx.size = rowIdx.size ∧ values.size = rowIdx.size) ∧ (∀ i ∈ rowIdx, i < rows) ∧ ∀ j ∈ colIdx, j < cols

theorem fits_iff (hcols : colIdx.size = rowIdx.size) (hvalues : values.size = rowIdx.size) :
    Fits rows cols rowIdx colIdx values ↔
      ∀ t ∈ Triplet.ofArrays rowIdx colIdx values, t.row < rows ∧ t.col < cols := by
  rw [forall_ofArrays_iff (p := (· < rows)) (q := (· < cols)) hcols hvalues]
  exact and_iff_right ⟨hcols, hvalues⟩

end Arrays

section Indices

variable {rowIdx colIdx : Array Nat} {values : Array T} (hrow : ∀ i ∈ rowIdx, i + 1 < UInt64.size)
  (hcol : ∀ j ∈ colIdx, j + 1 < UInt64.size)

include hrow hcol

/-- Arrays that fit are summed up. -/
theorem ofTriplets?_of_fits (h : Fits rows cols rowIdx colIdx values) :
    ofTriplets? rows cols rowIdx colIdx values =
      some (.ok (sumTriplets rows cols (Triplet.ofArrays rowIdx colIdx values))) := by
  obtain ⟨⟨hcols, hvalues⟩, hinside⟩ := h
  have hextents : ¬(rows < extent rowIdx ∨ cols < extent colIdx) := by
    rw [not_or, not_lt, not_lt, extent_le_iff hrow, extent_le_iff hcol]
    exact hinside
  have htriplets := (forall_ofArrays_iff (q := fun j => j < cols ∧ j + 1 < UInt64.size) hcols hvalues).mpr
    ⟨hinside.1, fun j hj => ⟨hinside.2 j hj, hcol j hj⟩⟩
  rw [ofTriplets?, if_neg (by simp [hcols, hvalues]), if_neg hextents, assemble?_eq rows fun t ht => (htriplets t ht).2]
  rfl

/-- Arrays that do not fit are refused. -/
theorem exists_error_of_not_fits (h : ¬Fits rows cols rowIdx colIdx values) :
    ∃ e, ofTriplets? rows cols rowIdx colIdx values = some (.error e) := by
  rw [ofTriplets?]
  by_cases hsizes : colIdx.size = rowIdx.size ∧ values.size = rowIdx.size
  · have hextents : rows < extent rowIdx ∨ cols < extent colIdx := by
      rw [← not_le, ← not_le, extent_le_iff hrow, extent_le_iff hcol, ← not_and_or]
      exact fun hinside => h ⟨hsizes, hinside⟩
    rw [if_neg (by simp [hsizes]), if_pos hextents]
    exact ⟨_, rfl⟩
  · rw [if_pos (not_and_or.mp hsizes)]
    exact ⟨_, rfl⟩

end Indices

/-- Three arrays whose indices have a word behind them are refused exactly if their lengths differ or an index is outside
of the matrix. Otherwise they make a matrix in which nothing can be amiss but a value that is not finite. It stores the
places that a triplet names, with the sum from left to right of the values named there, and it is the same for all
arrays that name the same values in the same order at each place. -/
theorem ofTriplets?_sums (rows cols : Nat) {rowIdx colIdx : Array Nat} {values : Array T}
    (hrow : ∀ i ∈ rowIdx, i + 1 < UInt64.size) (hcol : ∀ j ∈ colIdx, j + 1 < UInt64.size) :
    ((∃ e, ofTriplets? rows cols rowIdx colIdx values = some (.error e)) ↔ ¬Fits rows cols rowIdx colIdx values) ∧
      (Fits rows cols rowIdx colIdx values → ∃ M, ofTriplets? rows cols rowIdx colIdx values = some (.ok M) ∧
        M.size = (rows, cols) ∧
        M.check = (if M.values.all Scalar.isFinite then .ok () else .error .nonFiniteValue) ∧
        (∀ i < rows, ∀ j < cols,
          M.get? i j = some (leftSum (valuesAt (Triplet.ofArrays rowIdx colIdx values) i j)) ∧
          ((∃ v, M.get? i j = some (some v)) ↔
            ∃ t ∈ Triplet.ofArrays rowIdx colIdx values, t.row = i ∧ t.col = j)) ∧
        ∀ (rowIdx' colIdx' : Array Nat) (values' : Array T),
          colIdx'.size = rowIdx'.size → values'.size = rowIdx'.size →
          (∀ i j, valuesAt (Triplet.ofArrays rowIdx' colIdx' values') i j =
            valuesAt (Triplet.ofArrays rowIdx colIdx values) i j) →
          ofTriplets? rows cols rowIdx' colIdx' values' = some (.ok M)) := by
  refine ⟨⟨?_, exists_error_of_not_fits hrow hcol⟩, fun h => ?_⟩
  · rintro ⟨e, he⟩ hfits
    rw [ofTriplets?_of_fits hrow hcol hfits] at he
    cases he
  · have hinside := (fits_iff h.1.1 h.1.2).mp h
    have hformed : WellFormed (sumTriplets rows cols (Triplet.ofArrays rowIdx colIdx values)) :=
      wellFormed_sumTriplets fun t ht => (hinside t ht).1
    have hcols := cols_sumTriplets rows cols (Triplet.ofArrays rowIdx colIdx values)
    refine ⟨_, ofTriplets?_of_fits hrow hcol h, Prod.ext rfl hcols, hformed.check_eq, fun i hi j hj => ?_, ?_⟩
    · have hget : (sumTriplets rows cols (Triplet.ofArrays rowIdx colIdx values)).get? i j =
          some (leftSum (valuesAt (Triplet.ofArrays rowIdx colIdx values) i j)) := by
        rw [hformed.get?_eq hi (hj.trans_eq hcols.symm), lookup_sumTriplets rows i hj]
      refine ⟨hget, ?_⟩
      simp only [hget, Option.some_inj]
      exact exists_leftSum_iff.trans valuesAt_ne_nil_iff
    · intro rowIdx' colIdx' values' hcols' hvalues' hsame
      have hwords := (forall_ofArrays_iff hcols' hvalues').mp
        (forall_of_valuesAt hsame ((forall_ofArrays_iff h.1.1 h.1.2).mpr ⟨hrow, hcol⟩))
      have hfits := (fits_iff hcols' hvalues').mpr
        (forall_of_valuesAt (p := (· < rows)) (q := (· < cols)) hsame hinside)
      rw [ofTriplets?_of_fits hwords.1 hwords.2 hfits, sumTriplets_congr rows cols hsame]

/-- Machine numbers of which the first absorbs the last: the order of the values within a place matters, and that of the
places does not. -/
theorem ofTriplets?_sums_absorbed :
    (∀ i ∈ #[1, 0, 1, 1], i + 1 < UInt64.size) ∧ Fits 2 3 #[1, 0, 1, 1] #[2, 0, 2, 2] #[(1e16 : Float), 2, -1e16, 1] ∧
      ∃ M, ofTriplets? 2 3 #[1, 0, 1, 1] #[2, 0, 2, 2] #[(1e16 : Float), 2, -1e16, 1] = some (.ok M) ∧
        M.get? 1 2 = some (some 1) ∧ M.get? 1 1 = some none ∧
        ofTriplets? 2 3 #[1, 1, 1, 0] #[2, 2, 2, 0] #[(1e16 : Float), -1e16, 1, 2] = some (.ok M) := by
  have hrow : ∀ i ∈ #[1, 0, 1, 1], i + 1 < UInt64.size := by decide
  have hcol : ∀ j ∈ #[2, 0, 2, 2], j + 1 < UInt64.size := by decide
  have hfits : Fits 2 3 #[1, 0, 1, 1] #[2, 0, 2, 2] #[(1e16 : Float), 2, -1e16, 1] := ⟨⟨rfl, rfl⟩, by decide, by decide⟩
  obtain ⟨M, hM, -, -, hget, hsame⟩ := (ofTriplets?_sums 2 3 hrow hcol).2 hfits
  refine ⟨hrow, hfits, M, hM, ?_, ?_, hsame _ _ _ rfl rfl fun i j => ?_⟩
  · rw [(hget 1 (by decide) 2 (by decide)).1]
    decide +kernel
  · rw [(hget 1 (by decide) 1 (by decide)).1]
    decide +kernel
  · by_cases h : 1 = i ∧ 2 = j
    · obtain ⟨rfl, rfl⟩ := h
      rfl
    · simp only [valuesAt, Triplet.ofArrays, List.zip_cons_cons, List.zip_nil_left, List.map_cons, List.map_nil,
        List.filter_cons, h, decide_false, Bool.false_eq_true, if_false]

/-! ## The last word -/

/-- A row that is the last word is never refused, and the matrix that comes out fails its check. -/
theorem exists_malformed_of_lastWord {rowIdx colIdx : Array Nat} {values : Array T} (hrows : rows < UInt64.size)
    (hsizes : colIdx.size = rowIdx.size ∧ values.size = rowIdx.size) (hword : ∀ i ∈ rowIdx, i < UInt64.size)
    (hlast : UInt64.size - 1 ∈ rowIdx) (hcol : ∀ j ∈ colIdx, j < cols ∧ j + 1 < UInt64.size) :
    ∃ M, ofTriplets? rows cols rowIdx colIdx values = some (.ok M) ∧ M.check = .error .badRowIndex := by
  have hextent : extent rowIdx = 0 := by
    have hmax : rowIdx.toList.max? = some (UInt64.size - 1) := by
      refine List.max?_eq_some_iff.mpr ⟨Array.mem_toList_iff.mpr hlast, fun i hi => ?_⟩
      have := hword i (Array.mem_toList_iff.mp hi)
      omega
    rw [extent, hmax]
    rfl
  have htriplets := (forall_ofArrays_iff (p := fun _ => True) (q := fun j => j < cols ∧ j + 1 < UInt64.size) hsizes.1
    hsizes.2).mpr ⟨fun _ _ => trivial, hcol⟩
  have hextents : ¬(rows < extent rowIdx ∨ cols < extent colIdx) := by
    rw [hextent, not_or, not_lt, not_lt, extent_le_iff fun j hj => (hcol j hj).2]
    exact ⟨Nat.zero_le _, fun j hj => (hcol j hj).1⟩
  refine ⟨sumTriplets rows cols (Triplet.ofArrays rowIdx colIdx values), ?_, ?_⟩
  · rw [ofTriplets?, if_neg (by simp [hsizes]), if_neg hextents, assemble?_eq rows fun t ht => (htriplets t ht).2]
    rfl
  · -- the lengths and the pointers are in order, but the row is not inside
    have hlayout : Layout (sumTriplets rows cols (Triplet.ofArrays rowIdx colIdx values)) := layout_ofColumns _ _
    obtain ⟨hlen, hptr⟩ := layout_iff_checks.mp hlayout
    have hin : (sumTriplets rows cols (Triplet.ofArrays rowIdx colIdx values)).rowsInside = false := by
      rw [Bool.eq_false_iff, ne_eq, hlayout.rowsInside_iff]
      intro hinside
      rw [← Array.mem_toList_iff, ← rows_ofArrays hsizes.1 hsizes.2, List.mem_map] at hlast
      obtain ⟨t, ht, hrow⟩ := hlast
      obtain ⟨k, hk, hkrow⟩ := (exists_slot_sumTriplets (htriplets t ht).2.1).mpr ⟨t, ht, hrow, rfl⟩
      have hlt : (sumTriplets rows cols (Triplet.ofArrays rowIdx colIdx values)).rowAt k < rows :=
        hinside k (hlayout.lt_size (by rw [cols_sumTriplets]; exact (htriplets t ht).2.1) hk)
      rw [hkrow] at hlt
      omega
    simp [check, hlen, hptr, hin]

theorem lastWord_accepted : ¬Fits 2 2 #[UInt64.size - 1] #[0] #[(1 : Float)] ∧
    ∃ M, ofTriplets? 2 2 #[UInt64.size - 1] #[0] #[(1 : Float)] = some (.ok M) ∧ M.check = .error .badRowIndex :=
  ⟨fun h => absurd (h.2.1 (UInt64.size - 1) (by simp)) (by decide),
    exists_malformed_of_lastWord (by decide) ⟨rfl, rfl⟩ (by decide) (by simp) (by decide)⟩

end AugLag.SparseMatrix
