import AugLag.Proofs.Scatter
import AugLag.Sparse.Build
import AugLag.Sparse.Format

/-!
# The layout of a sparse matrix

The column pointers of a sparse matrix cut its arrays into consecutive stretches, one for each column
(`Layout`). A matrix is well formed if moreover its rows are inside of it and increase strictly in each column.
Matrices put together column by column have these properties if their columns do.
-/

namespace AugLag

/-! ## Sums of initial stretches -/

/-- The sums of all initial stretches of a list, the empty one first. -/
def prefixSums (counts : List Nat) : Array Nat :=
  counts.foldl (fun ptr c => ptr.push (ptr.back?.getD 0 + c)) #[0]

theorem prefixSums_concat (counts : List Nat) (c : Nat) :
    prefixSums (counts ++ [c]) = (prefixSums counts).push ((prefixSums counts).back?.getD 0 + c) := by
  simp [prefixSums]

@[simp] theorem size_prefixSums (counts : List Nat) : (prefixSums counts).size = counts.length + 1 := by
  induction counts using List.reverseRecOn with
  | nil => rfl
  | append_singleton counts c ih => simp [prefixSums_concat, ih]

theorem getD_prefixSums (counts : List Nat) {j : Nat} (h : j ≤ counts.length) :
    (prefixSums counts).getD j 0 = (counts.take j).sum := by
  induction counts using List.reverseRecOn generalizing j with
  | nil => simp_all [prefixSums]
  | append_singleton counts c ih =>
      have hback : (prefixSums counts).back?.getD 0 = counts.sum := by
        have hlast := ih le_rfl
        rw [List.take_length] at hlast
        rw [← hlast, Array.back?_eq_getElem?, size_prefixSums, Array.getD_eq_getD_getElem?]
        rfl
      rw [prefixSums_concat, hback, Array.getD_eq_getD_getElem?, Array.getElem?_push, size_prefixSums]
      by_cases hj : j = counts.length + 1
      · subst hj
        rw [if_pos rfl, Option.getD_some, List.take_of_length_le (by simp), List.sum_append, List.sum_singleton]
      · rw [List.length_append, List.length_singleton] at h
        rw [if_neg hj, ← Array.getD_eq_getD_getElem?, ih (by omega), List.take_append_of_le_length (by omega)]

theorem back_prefixSums (counts : List Nat) : (prefixSums counts).back?.getD 0 = counts.sum := by
  rw [Array.back?_eq_getElem?, ← Array.getD_eq_getD_getElem?, size_prefixSums, Nat.add_sub_cancel,
    getD_prefixSums counts le_rfl, List.take_length]

/-- Behind the last count the sum only repeats itself. -/
theorem prefixSums_append_zeros (counts : List Nat) (k : Nat) :
    prefixSums (counts ++ List.replicate k 0) = prefixSums counts ++ Array.replicate k counts.sum := by
  induction k with
  | zero => simp
  | succ k ih =>
      rw [List.replicate_succ', ← List.append_assoc, prefixSums_concat, back_prefixSums, ih, Array.replicate_succ,
        Array.append_push]
      simp

namespace SparseMatrix

variable {T : Type} {M : SparseMatrix T}

/-! ## Slots -/

theorem first_succ (M : SparseMatrix T) (j : Nat) : M.first (j + 1) = M.stop j := rfl

theorem mem_slots {j k : Nat} : k ∈ M.slots j ↔ M.first j ≤ k ∧ k < M.stop j := by
  rw [slots, List.mem_range'_1]
  omega

theorem nodup_slots (M : SparseMatrix T) (j : Nat) : (M.slots j).Nodup := List.nodup_range'

/-- The columns are consecutive stretches of arrays of equal length. -/
structure Layout (M : SparseMatrix T) : Prop where
  size_colPtr : M.colPtr.size = M.cols + 1
  first_zero : M.first 0 = 0
  first_le_stop : ∀ j < M.cols, M.first j ≤ M.stop j
  nnz_eq : M.nnz = M.values.size
  size_rowIdx : M.rowIdx.size = M.values.size

/-- The rows are inside of the matrix and increase strictly in each column. -/
structure WellFormed (M : SparseMatrix T) : Prop extends Layout M where
  rowAt_lt : ∀ k < M.values.size, M.rowAt k < M.rows
  rows_ascend : ∀ j < M.cols, ((M.slots j).map M.rowAt).Pairwise (· < ·)

/-- No column holds a row twice. The rows may come in any order. -/
structure Distinct (M : SparseMatrix T) : Prop extends Layout M where
  nodup_rows : ∀ j < M.cols, ((M.slots j).map M.rowAt).Nodup

/-- No entry is stored below the diagonal. -/
def Upper (M : SparseMatrix T) : Prop := ∀ j < M.cols, ∀ k ∈ M.slots j, M.rowAt k ≤ j

namespace Layout

theorem first_mono (h : Layout M) {i j : Nat} (hij : i ≤ j) (hj : j ≤ M.cols) : M.first i ≤ M.first j := by
  induction j, hij using Nat.le_induction with
  | base => exact le_rfl
  | succ j _ ih => exact (ih (by omega)).trans (h.first_le_stop j (by omega))

theorem stop_le_size (h : Layout M) {j : Nat} (hj : j < M.cols) : M.stop j ≤ M.values.size := by
  rw [← h.nnz_eq]
  exact h.first_mono hj le_rfl

theorem lt_size (h : Layout M) {j k : Nat} (hj : j < M.cols) (hk : k ∈ M.slots j) : k < M.values.size :=
  (mem_slots.mp hk).2.trans_le (h.stop_le_size hj)

/-- There are no slots behind the last column. -/
theorem slots_of_le (h : Layout M) {j : Nat} (hj : M.cols ≤ j) : M.slots j = [] := by
  have hstop : M.stop j = 0 := getD_of_size_le _ (by rw [h.size_colPtr]; omega) 0
  rw [slots, hstop, Nat.zero_sub]
  rfl

/-- A slot belongs to one column only. -/
theorem column_unique (h : Layout M) {i j k : Nat} (hi : i < M.cols) (hj : j < M.cols) (hki : k ∈ M.slots i)
    (hkj : k ∈ M.slots j) : i = j := by
  rw [mem_slots] at hki hkj
  rcases Nat.lt_trichotomy i j with hlt | heq | hgt
  · have := h.first_mono (i := i + 1) hlt hj.le
    rw [first_succ] at this
    omega
  · exact heq
  · have := h.first_mono (i := j + 1) hgt hi.le
    rw [first_succ] at this
    omega

/-- Every slot belongs to a column. -/
theorem exists_column (h : Layout M) {k : Nat} (hk : k < M.values.size) : ∃ j < M.cols, k ∈ M.slots j := by
  have hfind : ∀ c ≤ M.cols, k < M.first c → ∃ j < c, k ∈ M.slots j := by
    intro c
    induction c with
    | zero => intro _ hlt; simp [h.first_zero] at hlt
    | succ c ih =>
        intro hc hlt
        by_cases hkc : k < M.first c
        · obtain ⟨j, hj, hkj⟩ := ih (by omega) hkc
          exact ⟨j, by omega, hkj⟩
        · exact ⟨c, by omega, mem_slots.mpr ⟨not_lt.mp hkc, hlt⟩⟩
  refine hfind M.cols le_rfl ?_
  rwa [show M.first M.cols = M.values.size from h.nnz_eq]

/-- The slots of all columns are those of the arrays, each once and in order. -/
theorem flatMap_slots (h : Layout M) : (List.range M.cols).flatMap M.slots = List.range M.values.size := by
  have hstretch : ∀ c ≤ M.cols, (List.range c).flatMap M.slots = List.range (M.first c) := by
    intro c
    induction c with
    | zero => simp [h.first_zero]
    | succ c ih =>
        intro hc
        have hle := h.first_le_stop c (by omega)
        have hcat := List.range'_append_1 (s := 0) (m := M.first c) (n := M.stop c - M.first c)
        rw [Nat.zero_add, Nat.add_sub_cancel' hle] at hcat
        rw [List.range_succ, List.flatMap_append, ih (by omega), List.flatMap_singleton, slots, first_succ,
          List.range_eq_range', List.range_eq_range', hcat]
  rw [hstretch M.cols le_rfl]
  exact congrArg List.range h.nnz_eq

/-- Among the slots of all columns, each slot occurs in its own column and nowhere else. -/
theorem filter_allSlots (h : Layout M) {j k : Nat} (hj : j < M.cols)
    (hk : k ∈ M.slots j) :
    ((List.range M.cols).flatMap fun j => (M.slots j).map fun k => (j, k)).filter (fun e => e.2 = k) = [(j, k)] := by
  have hfst : ∀ e ∈ (List.range M.cols).flatMap fun j => (M.slots j).map fun k => (j, k), e.2 = k → e = (j, k) := by
    intro e he hek
    obtain ⟨j', hj', he⟩ := List.mem_flatMap.mp he
    obtain ⟨k', hk', rfl⟩ := List.mem_map.mp he
    subst hek
    rw [h.column_unique (List.mem_range.mp hj') hj hk' hk]
  have hsnd : ((List.range M.cols).flatMap fun j => (M.slots j).map fun k => (j, k)).map Prod.snd =
      List.range M.values.size := by
    rw [List.map_flatMap, ← h.flatMap_slots]
    simp [Function.comp_def]
  have hnodup : ((List.range M.cols).flatMap fun j => (M.slots j).map fun k => (j, k)).Nodup :=
    List.Nodup.of_map Prod.snd (hsnd ▸ List.nodup_range)
  have hfilter : ((List.range M.cols).flatMap fun j => (M.slots j).map fun k => (j, k)).filter (fun e => e.2 = k) =
      ((List.range M.cols).flatMap fun j => (M.slots j).map fun k => (j, k)).filter (fun e => e = (j, k)) := by
    refine List.filter_congr fun e he => decide_eq_decide.mpr ⟨hfst e he, fun heq => by rw [heq]⟩
  rw [hfilter, List.filter_eq, List.count_eq_one_of_mem hnodup]
  · rfl
  · exact List.mem_flatMap.mpr ⟨j, List.mem_range.mpr hj, List.mem_map.mpr ⟨k, hk, rfl⟩⟩

/-- The arrays agree with each other. -/
theorem ofArrays?_eq (h : Layout M) {rows cols : Nat} (hrows : M.rows = rows) (hcols : M.cols = cols) :
    ofArrays? rows cols M.colPtr M.rowIdx M.values = some M := by
  subst hrows hcols
  exact if_pos ⟨h.size_colPtr, h.size_rowIdx, h.nnz_eq⟩

end Layout

/-- Replacing rows and values leaves the layout alone. -/
theorem Layout.withArrays (h : Layout M) {rowIdx : Array Nat} {values : Array T}
    (hr : rowIdx.size = M.rowIdx.size) (hs : values.size = M.values.size) : Layout { M with rowIdx, values } :=
  { size_colPtr := h.size_colPtr
    first_zero := h.first_zero
    first_le_stop := h.first_le_stop
    nnz_eq := h.nnz_eq.trans hs.symm
    size_rowIdx := hr.trans (h.size_rowIdx.trans hs.symm) }

theorem Layout.withValues (h : Layout M) {values : Array T} (hs : values.size = M.values.size) :
    Layout { M with values } :=
  h.withArrays rfl hs

theorem WellFormed.withValues (h : WellFormed M) {values : Array T} (hs : values.size = M.values.size) :
    WellFormed { M with values } :=
  { h.toLayout.withValues hs with
    rowAt_lt := fun k hk => h.rowAt_lt k (hs ▸ hk)
    rows_ascend := h.rows_ascend }

theorem Distinct.withValues (h : Distinct M) {values : Array T} (hs : values.size = M.values.size) :
    Distinct { M with values } :=
  { h.toLayout.withValues hs with nodup_rows := h.nodup_rows }

theorem Distinct.eq_of_rowAt_eq (h : Distinct M) {j k l : Nat} (hj : j < M.cols) (hk : k ∈ M.slots j)
    (hl : l ∈ M.slots j) (hrow : M.rowAt k = M.rowAt l) : k = l :=
  List.inj_on_of_nodup_map (h.nodup_rows j hj) hk hl hrow

theorem WellFormed.distinct (h : WellFormed M) : Distinct M :=
  { h.toLayout with nodup_rows := fun j hj => (h.rows_ascend j hj).imp fun hlt => hlt.ne }

/-! ## The format check -/

theorem chained_iff_isChain {α : Type} {p : α → α → Bool} {l : List α} :
    chained p l = true ↔ l.IsChain (fun a b => p a b = true) := by
  induction l with
  | nil => simp [chained]
  | cons a l ih =>
      cases l with
      | nil => simp [chained]
      | cons b l => simp only [chained, Bool.and_eq_true, ih, List.isChain_cons_cons]

/-- Lengths that agree and pointers that ascend cut the arrays into columns, and nothing else does. -/
theorem layout_iff_checks : Layout M ↔ M.lengthsAgree = true ∧ M.pointersAscend = true := by
  simp only [lengthsAgree, pointersAscend, Bool.and_eq_true, beq_iff_eq]
  constructor
  · intro h
    refine ⟨⟨⟨h.size_colPtr, h.size_rowIdx⟩, h.nnz_eq⟩, h.first_zero, ?_⟩
    refine chained_iff_isChain.mpr (List.isChain_iff_getElem.mpr fun j hj => ?_)
    have hsize := h.size_colPtr
    rw [Array.length_toList] at hj
    have hle := h.first_le_stop j (by omega)
    have hj' : j < M.colPtr.size := by omega
    simpa [first, stop, Array.getD_eq_getD_getElem?, hj, hj'] using hle
  · rintro ⟨⟨⟨hcol, hrow⟩, hnnz⟩, hzero, hasc⟩
    refine { size_colPtr := hcol, first_zero := hzero, first_le_stop := fun j hj => ?_, nnz_eq := hnnz,
             size_rowIdx := hrow }
    have hget := List.isChain_iff_getElem.mp (chained_iff_isChain.mp hasc) j (by simp [hcol]; omega)
    have h₁ : j < M.colPtr.size := by omega
    have h₂ : j + 1 < M.colPtr.size := by omega
    simpa [first, stop, Array.getD_eq_getD_getElem?, h₁, h₂] using hget

theorem layout_of_checks (hlen : M.lengthsAgree = true) (hptr : M.pointersAscend = true) : Layout M :=
  layout_iff_checks.mpr ⟨hlen, hptr⟩

theorem Layout.rowsInside_iff (h : Layout M) : M.rowsInside = true ↔ ∀ k < M.values.size, M.rowAt k < M.rows := by
  rw [rowsInside, Array.all_eq_true, ← h.size_rowIdx]
  refine forall₂_congr fun k hk => ?_
  simp [rowAt, Array.getD_eq_getD_getElem?, hk]

/-- The checks of the structure hold of the well formed matrices. -/
theorem wellFormed_iff_checks : WellFormed M ↔
    (M.lengthsAgree = true ∧ M.pointersAscend = true) ∧ M.rowsInside = true ∧ M.rowsAscend = true := by
  have hrows : M.rowsAscend = true ↔ ∀ j < M.cols, ((M.slots j).map M.rowAt).Pairwise (· < ·) := by
    simp only [rowsAscend, List.all_eq_true, List.mem_range]
    refine forall₂_congr fun j _ => ?_
    rw [chained_iff_isChain, ← List.isChain_iff_pairwise]
    simp only [decide_eq_true_eq]
  rw [← layout_iff_checks, hrows]
  constructor
  · intro h
    exact ⟨h.toLayout, h.toLayout.rowsInside_iff.mpr h.rowAt_lt, h.rows_ascend⟩
  · rintro ⟨h, hin, hasc⟩
    exact { h with rowAt_lt := h.rowsInside_iff.mp hin, rows_ascend := hasc }

/-- A matrix that passes the check of its format is well formed. -/
theorem wellFormed_of_check [Scalar T] (h : M.check = .ok ()) : WellFormed M := by
  simp only [check] at h
  split_ifs at h with hlen hptr hin hrows _
  simp only [Bool.not_eq_true', Bool.not_eq_false] at hlen hptr hin hrows
  exact wellFormed_iff_checks.mpr ⟨⟨hlen, hptr⟩, hin, hrows⟩

theorem finite_of_check [Scalar T] (h : M.check = .ok ()) : M.values.all Scalar.isFinite = true := by
  simp only [check] at h
  split_ifs at h with hlen hptr hin hrows hfinite
  simpa using hfinite

/-- Of a well formed matrix nothing can be found amiss but a value that is not finite. -/
theorem WellFormed.check_eq [Scalar T] (h : WellFormed M) :
    M.check = if M.values.all Scalar.isFinite then .ok () else .error .nonFiniteValue := by
  obtain ⟨⟨hlen, hptr⟩, hin, hrows⟩ := wellFormed_iff_checks.mp h
  simp only [check, hlen, hptr, hin, hrows, Bool.not_true, Bool.false_eq_true, if_false]
  cases M.values.all Scalar.isFinite with
  | true => rfl
  | false => rfl

/-- A well formed matrix of finite values passes the check. -/
theorem check_of_wellFormed [Scalar T] (h : WellFormed M) (hfinite : M.values.all Scalar.isFinite = true) :
    M.check = .ok () := by
  rw [h.check_eq, if_pos hfinite]

/-! ## Matrices put together from columns -/

theorem map_getD_range'_append {α : Type} (l₁ l₂ l₃ : List α) (d : α) :
    (List.range' l₁.length l₂.length).map (fun k => (l₁ ++ l₂ ++ l₃).getD k d) = l₂ := by
  refine List.ext_getElem (by simp) fun t h₁ h₂ => ?_
  simp [List.getElem?_append, h₂]

variable {rows : Nat} {columns : List (List (Nat × T))}

theorem colPtr_ofColumns : (ofColumns rows columns).colPtr = prefixSums (columns.map List.length) := by
  rw [ofColumns, prefixSums, List.foldl_map]

theorem first_ofColumns {j : Nat} (h : j ≤ columns.length) :
    (ofColumns rows columns).first j = ((columns.take j).map List.length).sum := by
  rw [first, colPtr_ofColumns, getD_prefixSums _ (by simpa using h), List.map_take]

theorem stop_ofColumns {j : Nat} (h : j < columns.length) :
    (ofColumns rows columns).stop j = (ofColumns rows columns).first j + columns[j].length := by
  rw [← first_succ, first_ofColumns h, first_ofColumns h.le, List.take_succ_eq_append_getElem h, List.map_append,
    List.sum_append]
  simp

theorem slots_ofColumns {j : Nat} (h : j < columns.length) :
    (ofColumns rows columns).slots j =
      List.range' ((columns.take j).map List.length).sum columns[j].length := by
  rw [slots, stop_ofColumns h, first_ofColumns h.le, Nat.add_sub_cancel_left]

/-- A list written column after column shows a column at its slots. -/
theorem map_getD_slots_ofColumns {α : Type} (f : Nat × T → α) (d : α) {j : Nat} (h : j < columns.length) :
    ((ofColumns rows columns).slots j).map (fun k => (columns.flatMap fun c => c.map f).toArray.getD k d) =
      columns[j].map f := by
  have hsplit : columns = columns.take j ++ [columns[j]] ++ columns.drop (j + 1) := by simp
  have hlen : ((columns.take j).flatMap fun c => c.map f).length = ((columns.take j).map List.length).sum := by
    simp [List.length_flatMap]
  rw [slots_ofColumns h, ← hlen, ← @List.length_map _ _ columns[j] f]
  conv_lhs => enter [1, k]; rw [hsplit]
  simp only [List.flatMap_append, List.flatMap_singleton, Array.getD_eq_getD_getElem?, List.getElem?_toArray,
    ← List.getD_eq_getElem?_getD]
  exact map_getD_range'_append _ _ _ d

theorem rows_ofColumns {j : Nat} (h : j < columns.length) :
    ((ofColumns rows columns).slots j).map (ofColumns rows columns).rowAt = columns[j].map Prod.fst :=
  map_getD_slots_ofColumns Prod.fst 0 h

@[simp] theorem column_ofColumns [Scalar T] {j : Nat} (h : j < columns.length) :
    (ofColumns rows columns).column j = columns[j] := by
  have hrows : ((ofColumns rows columns).slots j).map (ofColumns rows columns).rowAt = _ := rows_ofColumns h
  have hvalues : ((ofColumns rows columns).slots j).map (ofColumns rows columns).valueAt = _ :=
    map_getD_slots_ofColumns Prod.snd (0 : T) h
  rw [column, ← List.zip_map', hrows, hvalues, List.zip_map']
  simp

theorem layout_ofColumns (rows : Nat) (columns : List (List (Nat × T))) : Layout (ofColumns rows columns) where
  size_colPtr := by rw [colPtr_ofColumns, size_prefixSums, List.length_map]; rfl
  first_zero := by simp [first_ofColumns]
  first_le_stop j hj := by rw [stop_ofColumns hj]; omega
  nnz_eq := by
    have : (ofColumns rows columns).first columns.length = _ := first_ofColumns le_rfl
    rw [List.take_length] at this
    refine Eq.trans this ?_
    simp [ofColumns, List.length_flatMap]
  size_rowIdx := by simp [ofColumns, List.length_flatMap]

theorem wellFormed_ofColumns (hlt : ∀ c ∈ columns, ∀ e ∈ c, e.1 < rows)
    (hasc : ∀ c ∈ columns, (c.map Prod.fst).Pairwise (· < ·)) : WellFormed (ofColumns rows columns) :=
  { layout_ofColumns rows columns with
    rowAt_lt := fun k hk => by
      obtain ⟨j, hj, hkj⟩ := (layout_ofColumns rows columns).exists_column hk
      have hmem := List.mem_map_of_mem (f := (ofColumns rows columns).rowAt) hkj
      rw [rows_ofColumns hj] at hmem
      obtain ⟨e, he, hrow⟩ := List.mem_map.mp hmem
      exact hrow ▸ hlt _ (List.getElem_mem hj) e he
    rows_ascend := fun j hj => by
      rw [rows_ofColumns hj]
      exact hasc _ (List.getElem_mem hj) }

end SparseMatrix
end AugLag
