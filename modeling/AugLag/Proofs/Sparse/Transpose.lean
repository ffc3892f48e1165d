import AugLag.Proofs.Sparse.CountingSort
import AugLag.Proofs.Sparse.Lookup

/-!
# Transposes

The transpose sorts the slots of a matrix by their rows. Each slot of the result is filled once, and since the columns are
visited in order, the rows of the result come out in order, too, whatever the order of the rows before
(`transpose?_mirrors`).
-/

namespace AugLag

/-- A loop that puts down two things for each item scatters both to the places of the items. -/
theorem foldl_place₂ {β γ δ : Type} (key : β → Nat) (l : List β) (f : β → γ) (g : β → δ) (next : Array Nat)
    (out : Array γ) (out' : Array δ) :
    (l.foldl (fun acc b => (acc.1.modify (key b) (· + 1), acc.2.1.setIfInBounds (acc.1.getD (key b) 0) (f b),
        acc.2.2.setIfInBounds (acc.1.getD (key b) 0) (g b))) (next, out, out')).2 =
      ((l.zip (places key next l)).foldl (fun out e => out.setIfInBounds e.2 (f e.1)) out,
        (l.zip (places key next l)).foldl (fun out e => out.setIfInBounds e.2 (g e.1)) out') := by
  induction l generalizing next out out' with
  | nil => rfl
  | cons b l ih => rw [List.foldl_cons, ih, places, List.zip_cons_cons, List.foldl_cons, List.foldl_cons]

namespace SparseMatrix

variable {T : Type} {M : SparseMatrix T}

/-- The slots of all columns, each with its column. -/
def allSlots (M : SparseMatrix T) : List (Nat × Nat) :=
  (List.range M.cols).flatMap fun j => (M.slots j).map fun k => (j, k)

theorem mem_allSlots {e : Nat × Nat} : e ∈ M.allSlots ↔ e.1 < M.cols ∧ e.2 ∈ M.slots e.1 := by
  obtain ⟨j, k⟩ := e
  simp only [allSlots, List.mem_flatMap, List.mem_range, List.mem_map, Prod.mk.injEq]
  constructor
  · rintro ⟨j', hj, k', hk, rfl, rfl⟩
    exact ⟨hj, hk⟩
  · rintro ⟨hj, hk⟩
    exact ⟨j, hj, k, hk, rfl, rfl⟩

namespace Layout

theorem map_snd_allSlots (h : Layout M) : M.allSlots.map Prod.snd = List.range M.values.size := by
  rw [allSlots, List.map_flatMap, ← h.flatMap_slots]
  simp [Function.comp_def]

theorem length_allSlots (h : Layout M) : M.allSlots.length = M.values.size := by
  rw [← List.length_map (f := Prod.snd), h.map_snd_allSlots, List.length_range]

theorem rowPointers_eq_starts (h : Layout M) :
    M.rowPointers = starts (fun e => M.rowAt e.2) M.allSlots M.rows := by
  rw [rowPointers_eq, h.size_rowIdx, ← h.map_snd_allSlots, starts, List.foldl_map]
  rfl

end Layout

variable [Scalar T]

/-- Both arrays of the transpose are scattered to the places of the slots. -/
theorem arrays_transpose (M : SparseMatrix T) :
    (M.transpose.rowIdx, M.transpose.values) =
      ((M.allSlots.zip (places (fun e => M.rowAt e.2) M.transpose.colPtr M.allSlots)).foldl
          (fun out e => out.setIfInBounds e.2 e.1.1) (Array.replicate M.nnz 0),
        (M.allSlots.zip (places (fun e => M.rowAt e.2) M.transpose.colPtr M.allSlots)).foldl
          (fun out e => out.setIfInBounds e.2 (M.valueAt e.1.2)) (Array.replicate M.nnz 0)) := by
  rw [← foldl_place₂ (fun e => M.rowAt e.2) M.allSlots Prod.fst fun e => M.valueAt e.2, allSlots, List.foldl_flatMap]
  simp only [List.foldl_map]
  rfl

section Rows

variable (h : Layout M) (hrow : ∀ k < M.values.size, M.rowAt k < M.rows)

include h hrow

omit [Scalar T] in
theorem rowAt_lt_of_mem_allSlots : ∀ e ∈ M.allSlots, M.rowAt e.2 < M.rows := by
  intro e he
  obtain ⟨hj, hk⟩ := mem_allSlots.mp he
  exact hrow e.2 (h.lt_size hj hk)

theorem layout_transpose : Layout M.transpose := by
  have hptr : M.transpose.colPtr = starts (fun e => M.rowAt e.2) M.allSlots M.rows := h.rowPointers_eq_starts
  have harrays := Prod.mk.inj (arrays_transpose M)
  have hsize : M.transpose.values.size = M.nnz := by
    rw [harrays.2, size_foldl_setIfInBounds _ Prod.snd fun e : (Nat × Nat) × Nat => M.valueAt e.1.2, Array.size_replicate]
  have hsize' : M.transpose.rowIdx.size = M.nnz := by
    rw [harrays.1, size_foldl_setIfInBounds _ Prod.snd fun e : (Nat × Nat) × Nat => e.1.1, Array.size_replicate]
  refine { size_colPtr := ?_, first_zero := ?_, first_le_stop := fun r hr => ?_, nnz_eq := ?_,
           size_rowIdx := hsize'.trans hsize.symm }
  · rw [hptr, size_starts]
    rfl
  · rw [first, hptr, getD_starts _ _ (Nat.zero_le _)]
    simp
  · rw [first, stop, hptr]
    exact starts_mono _ _ (Nat.le_succ r) hr
  · have hlast := getD_starts_bound (rowAt_lt_of_mem_allSlots h hrow)
    rw [hsize, nnz, hptr, h.nnz_eq, ← h.length_allSlots]
    exact hlast

/-- A column of the transpose holds the slots that name its row, in the order of their columns. -/
theorem column_transpose {r : Nat} (hr : r < M.rows) :
    M.transpose.column r = (M.allSlots.filter fun e => M.rowAt e.2 = r).map fun e => (e.1, M.valueAt e.2) := by
  have hkey := rowAt_lt_of_mem_allSlots h hrow
  have hptr : M.transpose.colPtr = starts (fun e => M.rowAt e.2) M.allSlots M.rows := h.rowPointers_eq_starts
  have hroom : M.allSlots.length ≤ M.nnz := (h.length_allSlots.trans h.nnz_eq.symm).le
  have harrays := Prod.mk.inj (arrays_transpose M)
  rw [hptr] at harrays
  have hrows : (M.transpose.slots r).map M.transpose.rowAt =
      (M.allSlots.filter fun e => M.rowAt e.2 = r).map Prod.fst := by
    rw [← map_scatter_places hkey Prod.fst 0 (hroom.trans_eq Array.size_replicate.symm) hr, ← harrays.1, ← hptr]
    rfl
  have hvalues : (M.transpose.slots r).map M.transpose.valueAt =
      (M.allSlots.filter fun e => M.rowAt e.2 = r).map fun e => M.valueAt e.2 := by
    rw [← map_scatter_places hkey (fun e => M.valueAt e.2) 0 (hroom.trans_eq Array.size_replicate.symm) hr,
      ← harrays.2, ← hptr]
    rfl
  rw [column, ← List.zip_map', hrows, hvalues, List.zip_map']

/-- Nothing is lost and nothing is added. -/
theorem mem_column_transpose {r c : Nat} {v : T} : (c, v) ∈ M.transpose.column r ↔ (r, v) ∈ M.column c := by
  rw [mem_column (M := M)]
  by_cases hr : r < M.rows
  · rw [column_transpose h hrow hr, List.mem_map]
    constructor
    · rintro ⟨e, he, heq⟩
      obtain ⟨rfl, rfl⟩ := Prod.mk.inj heq
      obtain ⟨hmem, hname⟩ := List.mem_filter.mp he
      exact ⟨e.2, (mem_allSlots.mp hmem).2, of_decide_eq_true hname, rfl⟩
    · rintro ⟨k, hk, hname, rfl⟩
      have hc : c < M.cols := by
        by_contra hc
        rw [h.slots_of_le (not_lt.mp hc)] at hk
        cases hk
      exact ⟨(c, k), List.mem_filter.mpr ⟨mem_allSlots.mpr ⟨hc, hk⟩, decide_eq_true hname⟩, rfl⟩
  · rw [(layout_transpose h hrow).column_of_le (not_lt.mp hr)]
    refine iff_of_false List.not_mem_nil ?_
    rintro ⟨k, hk, rfl, -⟩
    by_cases hc : c < M.cols
    · exact hr (hrow k (h.lt_size hc hk))
    · rw [h.slots_of_le (not_lt.mp hc)] at hk
      cases hk

/-- Every entry finds a place. -/
theorem transpose?_eq : M.transpose? = some M.transpose := by
  have hvisited : M.visitedRows = M.allSlots.map fun e => M.rowAt e.2 := by
    rw [visitedRows, allSlots, List.map_flatMap]
    simp [Function.comp_def]
  have hplaces : M.placesSuffice = true := by
    refine List.all_eq_true.mpr fun r hr => decide_eq_true ?_
    rw [hvisited] at hr ⊢
    obtain ⟨e, he, rfl⟩ := List.mem_map.mp hr
    have hlt := rowAt_lt_of_mem_allSlots h hrow e he
    have hmono := starts_mono (fun e => M.rowAt e.2) M.allSlots (i := M.rowAt e.2 + 1) hlt le_rfl
    rw [getD_starts_bound (rowAt_lt_of_mem_allSlots h hrow), getD_starts _ _ hlt, countP_lt_succ, h.length_allSlots,
      ← h.nnz_eq] at hmono
    rw [h.rowPointers_eq_starts, getD_starts _ _ hlt.le, List.count_eq_countP, List.countP_map]
    exact hmono
  have hin : (M.rowIdx.all fun r => decide (r < M.rows)) = true := h.rowsInside_iff.mpr hrow
  rw [transpose?, if_pos]
  simp [h.size_colPtr, hin, h.slots_inside, hplaces]

end Rows

section Distinct

variable (h : Distinct M) (hrow : ∀ k < M.values.size, M.rowAt k < M.rows)

include h hrow

/-- A column names a row once, so that the slots of one row are in columns that increase strictly. -/
theorem ascend_column_transpose {r : Nat} (hr : r < M.rows) :
    ((M.transpose.column r).map Prod.fst).Pairwise (· < ·) := by
  rw [column_transpose h.toLayout hrow hr, List.map_map, List.pairwise_map, allSlots, List.filter_flatMap,
    List.pairwise_flatMap]
  constructor
  · intro j hj
    rw [List.mem_range] at hj
    have hone : ((M.slots j).filter fun k => M.rowAt k = r).Pairwise fun _ _ => False := by
      refine List.Pairwise.imp_of_mem (fun hk hl hne => ?_) ((M.nodup_slots j).filter _)
      rw [List.mem_filter, decide_eq_true_eq] at hk hl
      exact hne (h.eq_of_rowAt_eq hj hk.1 hl.1 (hk.2.trans hl.2.symm))
    rw [List.filter_map, List.pairwise_map]
    exact hone.imp False.elim
  · refine List.pairwise_lt_range.imp fun hlt e he e' he' => ?_
    obtain ⟨k, -, rfl⟩ := List.mem_map.mp (List.mem_of_mem_filter he)
    obtain ⟨k', -, rfl⟩ := List.mem_map.mp (List.mem_of_mem_filter he')
    exact hlt

theorem wellFormed_transpose : WellFormed M.transpose := by
  have hlayout := layout_transpose h.toLayout hrow
  refine { hlayout with rowAt_lt := fun p hp => ?_, rows_ascend := fun r hr => ?_ }
  · obtain ⟨r, hr, hpr⟩ := hlayout.exists_column hp
    have hmem := mem_column.mpr ⟨p, hpr, rfl, rfl⟩
    obtain ⟨k, hk, -⟩ := mem_column.mp ((mem_column_transpose h.toLayout hrow).mp hmem)
    by_contra hc
    rw [h.slots_of_le (not_lt.mp hc)] at hk
    cases hk
  · rw [← map_fst_column]
    exact ascend_column_transpose h hrow hr

end Distinct

/-- Two transposes put every entry back. -/
theorem WellFormed.transpose_transpose (h : WellFormed M) : M.transpose.transpose = M := by
  have hN := wellFormed_transpose h.distinct h.rowAt_lt
  have hO := wellFormed_transpose hN.distinct hN.rowAt_lt
  refine hO.ext_lookup h rfl fun j hj i _ => Option.ext fun v => ?_
  rw [lookup_eq_some_iff_mem (hO.distinct.nodup_column hj), lookup_eq_some_iff_mem (h.distinct.nodup_column hj),
    mem_column_transpose hN.toLayout hN.rowAt_lt, mem_column_transpose h.toLayout h.rowAt_lt]

/-- The transpose of a matrix that holds no place twice passes every check of the format and holds at each place what
the matrix holds at the mirrored one. The rows of the matrix may come in any order in its columns: transposed
twice, a well formed matrix is itself again, and every other one has its columns sorted. -/
theorem transpose?_mirrors (h : Distinct M) (hrow : ∀ k < M.values.size, M.rowAt k < M.rows) :
    ∃ N, M.transpose? = some N ∧ N.size = (M.cols, M.rows) ∧
      N.check = (if N.values.all Scalar.isFinite then .ok () else .error .nonFiniteValue) ∧
      (∀ r < M.rows, ∀ c < M.cols, ∀ v, N.get? c r = some (some v) ↔ (r, v) ∈ M.column c) ∧
      (WellFormed M → N.transpose? = some M) ∧
      ∃ O, N.transpose? = some O ∧ O.size = M.size ∧
        O.check = (if O.values.all Scalar.isFinite then .ok () else .error .nonFiniteValue) ∧
        ∀ c < M.cols, (O.column c).Perm (M.column c) ∧ ((O.column c).map Prod.fst).Pairwise (· < ·) := by
  have hN := wellFormed_transpose h hrow
  have hO := wellFormed_transpose hN.distinct hN.rowAt_lt
  have htwice : M.transpose.transpose? = some M.transpose.transpose := transpose?_eq hN.toLayout hN.rowAt_lt
  refine ⟨M.transpose, transpose?_eq h.toLayout hrow, rfl, hN.check_eq, fun r hr c hc v => ?_, fun hM => ?_,
    M.transpose.transpose, htwice, rfl, hO.check_eq, fun c hc => ⟨?_, hO.ascend_column hc⟩⟩
  · rw [hN.get?_eq hc hr, Option.some_inj, lookup_eq_some_iff_mem (hN.distinct.nodup_column hr),
      mem_column_transpose h.toLayout hrow]
  · rw [htwice, hM.transpose_transpose]
  · refine (List.perm_ext_iff_of_nodup (.of_map _ (hO.distinct.nodup_column hc))
      (.of_map _ (h.nodup_column hc))).mpr fun e => ?_
    rw [mem_column_transpose hN.toLayout hN.rowAt_lt, mem_column_transpose h.toLayout hrow]

/-- Four rows and three columns, of which the first and the last have their rows out of order. -/
def shuffled : SparseMatrix Float :=
  { rows := 4, cols := 3, colPtr := #[0, 2, 2, 5], rowIdx := #[3, 0, 1, 3, 0], values := #[1, 2, 0, -4, 5] }

theorem transpose?_mirrors_shuffled :
    (Distinct shuffled ∧ ∀ k < shuffled.values.size, shuffled.rowAt k < shuffled.rows) ∧
      ∃ N, shuffled.transpose? = some N ∧ N.check = .ok () ∧ N.get? 0 3 = some (some 1) ∧
        N.get? 2 1 = some (some 0) ∧ ∃ O, N.transpose? = some O ∧ O.column 2 = [(0, 5), (1, 0), (3, -4)] := by
  have hd : Distinct shuffled :=
    { layout_of_checks (M := shuffled) (by decide) (by decide) with nodup_rows := by decide }
  have hrow : ∀ k < shuffled.values.size, shuffled.rowAt k < shuffled.rows := by decide
  obtain ⟨N, hN, -, hcheck, hget, -, O, hO, -, -, hcol⟩ := transpose?_mirrors hd hrow
  refine ⟨⟨hd, hrow⟩, N, hN, ?_, (hget 3 (by decide) 0 (by decide) 1).mpr ?_, (hget 1 (by decide) 2 (by decide) 0).mpr ?_,
    O, hO, ?_⟩
  · obtain rfl := Option.some.inj ((transpose?_eq hd.toLayout hrow).symm.trans hN)
    rw [hcheck]
    decide +kernel
  · exact .head _
  · exact .head _
  · obtain ⟨hperm, hlt⟩ := hcol 2 (by decide)
    exact (hperm.trans (.trans (.cons _ (.swap _ _ _)) (.swap _ _ _))).eq_of_pairwise
      (fun a b _ _ hab hba => absurd hab (lt_asymm hba)) (List.pairwise_map.mp hlt) (by decide)

end SparseMatrix
end AugLag
