import AugLag.Proofs.Sparse.Entry

/-!
# Binary search

Bisection of a window in which one answer is followed by another. Slots are found by their rows, and the upper
triangle of a matrix keeps exactly the entries that are not below the diagonal.
-/

namespace AugLag

/-! ## Bisection -/

/-- The place found is the last one of the window that is not too large, unless all places are. -/
theorem bisect_spec (compare : Nat → Ordering) (base size last : Nat) (hpos : 0 < size) (hlast : base + size ≤ last)
    (hmono : ∀ i j, base ≤ i → i ≤ j → j < last → compare i = .gt → compare j = .gt)
    (hbeyond : ∀ j, base + size ≤ j → j < last → compare j = .gt) :
    base ≤ bisect compare base size ∧ bisect compare base size < last ∧
      (bisect compare base size = base ∨ compare (bisect compare base size) ≠ .gt) ∧
      ∀ j, bisect compare base size < j → j < last → compare j = .gt := by
  induction size using Nat.strong_induction_on generalizing base with
  | h size ih =>
      unfold bisect
      by_cases hone : size ≤ 1
      · rw [if_pos hone]
        exact ⟨le_rfl, by omega, .inl rfl, fun j hj hjl => hbeyond j (by omega) hjl⟩
      · rw [if_neg hone]
        by_cases hmid : compare (base + size / 2) = .gt
        · simp only [if_pos hmid]
          refine ih (size - size / 2) (by omega) base (by omega) (by omega) hmono fun j hj hjl => ?_
          exact hmono (base + size / 2) j (by omega) (by omega) hjl hmid
        · simp only [if_neg hmid]
          obtain ⟨hle, hlt, hkeep, hrest⟩ := ih (size - size / 2) (by omega) (base + size / 2) (by omega)
            (by omega) (fun i j hi => hmono i j (by omega)) fun j hj => hbeyond j (by omega)
          refine ⟨by omega, hlt, .inr ?_, hrest⟩
          rcases hkeep with heq | hne
          · rw [heq]
            exact hmid
          · exact hne

/-- The cut separates the places before it from those behind it. -/
theorem cutPoint_spec (before : Nat → Bool) (base size : Nat)
    (hmono : ∀ i j, base ≤ i → i ≤ j → j < base + size → before j = true → before i = true) :
    cutPoint before base size ≤ size ∧
      ∀ i, base ≤ i → i < base + size → (before i = true ↔ i < base + cutPoint before base size) := by
  unfold cutPoint
  by_cases hzero : size = 0
  · rw [if_pos hzero]
    exact ⟨Nat.zero_le _, fun i hi hi' => by omega⟩
  · rw [if_neg hzero]
    have hgt : ∀ i, (if before i then Ordering.lt else .gt) = .gt ↔ before i = false := by
      intro i
      cases before i <;> simp
    obtain ⟨hle, hlt, hkeep, hrest⟩ := bisect_spec (fun i => if before i then .lt else .gt) base size
      (base + size) (by omega) le_rfl
      (fun i j hi hij hj hi' => by
        rw [hgt] at hi' ⊢
        by_contra hbj
        rw [hmono i j hi hij hj (by simpa using hbj)] at hi'
        cases hi')
      (fun j hj hj' => by omega)
    simp only [hgt, ne_eq, Bool.not_eq_false] at hkeep hrest
    generalize bisect (fun i => if before i then .lt else .gt) base size = k at *
    cases hk : before k with
    | false =>
        have hbase : k = base := by
          rcases hkeep with heq | htrue
          · exact heq
          · rw [hk] at htrue
            cases htrue
        simp only [hk, Bool.false_eq_true, if_false, add_zero]
        refine ⟨by omega, fun i hi hi' => ?_⟩
        have hfalse : before i = false := by
          rcases hi.eq_or_lt with rfl | hlt'
          · rw [← hbase, hk]
          · exact hrest i (by omega) hi'
        rw [hfalse]
        exact iff_of_false Bool.false_ne_true (by omega)
    | true =>
        simp only [hk, if_true]
        refine ⟨by omega, fun i hi hi' => ?_⟩
        by_cases hik : i ≤ k
        · exact iff_of_true (hmono i k hi hik hlt hk) (by omega)
        · rw [hrest i (by omega) hi']
          exact iff_of_false Bool.false_ne_true (by omega)

namespace SparseMatrix

variable {T : Type} {M : SparseMatrix T}

/-! ## Slots by their rows -/

theorem WellFormed.rowAt_lt_rowAt (h : WellFormed M) {j k l : Nat} (hj : j < M.cols) (hk : k ∈ M.slots j)
    (hl : l ∈ M.slots j) (hkl : k < l) : M.rowAt k < M.rowAt l := by
  have hasc := List.pairwise_map.mp (h.rows_ascend j hj)
  rw [mem_slots] at hk hl
  have := List.pairwise_iff_getElem.mp hasc (k - M.first j) (l - M.first j) (by simp [slots]; omega)
    (by simp [slots]; omega) (by omega)
  simpa [slots, Nat.add_sub_cancel' hk.1, Nat.add_sub_cancel' hl.1] using this

theorem WellFormed.rowAt_le_rowAt (h : WellFormed M) {j k l : Nat} (hj : j < M.cols) (hk : k ∈ M.slots j)
    (hl : l ∈ M.slots j) (hkl : k ≤ l) : M.rowAt k ≤ M.rowAt l := by
  rcases hkl.eq_or_lt with rfl | hlt
  · exact le_rfl
  · exact (h.rowAt_lt_rowAt hj hk hl hlt).le

theorem WellFormed.eq_of_rowAt_eq (h : WellFormed M) {j k l : Nat} (hj : j < M.cols) (hk : k ∈ M.slots j)
    (hl : l ∈ M.slots j) (hrow : M.rowAt k = M.rowAt l) : k = l := by
  rcases Nat.lt_trichotomy k l with hlt | heq | hgt
  · exact absurd hrow (h.rowAt_lt_rowAt hj hk hl hlt).ne
  · exact heq
  · exact absurd hrow (h.rowAt_lt_rowAt hj hl hk hgt).ne'

/-- The search for a row finds its slot, and finds nothing if there is none. -/
theorem WellFormed.findSlot_eq_some (h : WellFormed M) {i j k : Nat} (hj : j < M.cols) :
    M.findSlot i j = some k ↔ k ∈ M.slots j ∧ M.rowAt k = i := by
  have hle := h.first_le_stop j hj
  unfold findSlot
  by_cases hzero : M.stop j - M.first j = 0
  · rw [if_pos hzero]
    refine ⟨fun hk => absurd hk (Option.some_ne_none k).symm, fun hk => ?_⟩
    have := mem_slots.mp hk.1
    omega
  · rw [if_neg hzero]
    have hmem : ∀ k, M.first j ≤ k → k < M.stop j → k ∈ M.slots j := fun k h₁ h₂ => mem_slots.mpr ⟨h₁, h₂⟩
    obtain ⟨hfirst, hstop, hkeep, hrest⟩ := bisect_spec (fun k => compare (M.rowAt k) i) (M.first j)
      (M.stop j - M.first j) (M.stop j) (by omega) (by omega)
      (fun a b ha hab hb hgt => by
        rw [Nat.compare_eq_gt] at hgt ⊢
        exact hgt.trans_le (h.rowAt_le_rowAt hj (hmem a ha (by omega)) (hmem b (by omega) hb) hab))
      (fun b hb hb' => by omega)
    simp only [ne_eq, Nat.compare_eq_gt, not_lt] at hkeep hrest
    generalize bisect (fun k => compare (M.rowAt k) i) (M.first j) (M.stop j - M.first j) = p at *
    have hp := hmem p hfirst hstop
    constructor
    · intro hk
      by_cases hrow : M.rowAt p = i
      · rw [if_pos hrow, Option.some_inj] at hk
        exact hk ▸ ⟨hp, hrow⟩
      · rw [if_neg hrow] at hk
        cases hk
    · rintro ⟨hk, hrow⟩
      have hkp : k ≤ p := by
        by_contra hlt
        have := hrest k (not_le.mp hlt) (mem_slots.mp hk).2
        omega
      have heq : k = p := by
        refine le_antisymm hkp ?_
        rcases hkeep with hbase | hrow'
        · rw [hbase]
          exact (mem_slots.mp hk).1
        · by_contra hlt
          have := h.rowAt_lt_rowAt hj hk hp (not_le.mp hlt)
          omega
      rw [← heq, if_pos hrow]

/-- What is not stored is zero. -/
theorem WellFormed.entry_eq {K : Type} [ExactScalar K] {M : SparseMatrix K} (h : WellFormed M) {j : Nat} (hj : j < M.cols)
    (i : Nat) : M.entry i j = (M.get i j).getD 0 := by
  rw [get]
  cases hslot : M.findSlot i j with
  | none =>
      refine entry_eq_zero fun k hk hrow => ?_
      cases hslot.symm.trans ((h.findSlot_eq_some hj).mpr ⟨hk, hrow⟩)
  | some k =>
      obtain ⟨hk, rfl⟩ := (h.findSlot_eq_some hj).mp hslot
      exact entry_rowAt (h.nodup_rows hj) hk

/-! ## The upper triangle -/

theorem take_eq_filter {α : Type} (l : List α) (p : α → Bool) (c : Nat)
    (h : ∀ t, (ht : t < l.length) → (p l[t] = true ↔ t < c)) : l.take c = l.filter p := by
  conv_rhs => rw [← List.take_append_drop c l, List.filter_append]
  have htake : (l.take c).filter p = l.take c := by
    refine List.filter_eq_self.mpr fun a ha => ?_
    obtain ⟨t, ht, rfl⟩ := List.mem_iff_getElem.mp ha
    rw [List.length_take] at ht
    rw [List.getElem_take]
    exact (h t (by omega)).mpr (by omega)
  have hdrop : (l.drop c).filter p = [] := by
    refine List.filter_eq_nil_iff.mpr fun a ha => ?_
    obtain ⟨t, ht, rfl⟩ := List.mem_iff_getElem.mp ha
    rw [List.length_drop] at ht
    rw [List.getElem_drop, h (c + t) (by omega)]
    omega
  rw [htake, hdrop, List.append_nil]

variable [Scalar T]

theorem getElem_column (M : SparseMatrix T) (j t : Nat) (ht : t < (M.column j).length) :
    (M.column j)[t] = (M.rowAt (M.first j + t), M.valueAt (M.first j + t)) := by
  simp [column, slots]

/-- The part of a sorted column that is kept ends at the diagonal. -/
theorem WellFormed.upperCount_spec (h : WellFormed M) {j : Nat} (hj : j < M.cols) :
    M.upperCount j ≤ M.stop j - M.first j ∧
      (M.column j).take (M.upperCount j) = (M.column j).filter fun e => e.1 ≤ j := by
  have hle := h.first_le_stop j hj
  obtain ⟨hcount, hcut⟩ := cutPoint_spec (fun k => M.rowAt k ≤ j) (M.first j) (M.stop j - M.first j)
    fun a b ha hab hb hrow => by
      have hab' := h.rowAt_le_rowAt hj (mem_slots.mpr ⟨ha, by omega⟩) (mem_slots.mpr ⟨by omega, by omega⟩) hab
      simp only [decide_eq_true_eq] at hrow ⊢
      omega
  refine ⟨hcount, take_eq_filter _ _ _ fun t ht => ?_⟩
  rw [length_column] at ht
  rw [getElem_column]
  refine (hcut (M.first j + t) (by omega) (by omega)).trans ?_
  rw [upperCount]
  omega

theorem WellFormed.take_upperCount (h : WellFormed M) {j : Nat} (hj : j < M.cols) :
    (M.column j).take (M.upperCount j) = (M.column j).filter fun e => e.1 ≤ j := (h.upperCount_spec hj).2

theorem column_upperTriangle (h : WellFormed M) {j : Nat} (hj : j < M.cols) :
    M.upperTriangle.column j = (M.column j).filter fun e => e.1 ≤ j := by
  rw [upperTriangle, column_ofColumns (by simpa using hj), List.getElem_map, List.getElem_range,
    h.take_upperCount hj]

theorem cols_upperTriangle (M : SparseMatrix T) : M.upperTriangle.cols = M.cols := by
  simp [upperTriangle, ofColumns]

theorem wellFormed_upperTriangle (h : WellFormed M) : WellFormed M.upperTriangle := by
  refine wellFormed_ofColumns (fun c hc e he => ?_) fun c hc => ?_
  · obtain ⟨j, hj, rfl⟩ := List.mem_map.mp hc
    obtain ⟨k, hk, rfl⟩ := List.mem_map.mp (List.mem_of_mem_take he)
    exact h.rowAt_lt k (h.lt_size (List.mem_range.mp hj) hk)
  · obtain ⟨j, hj, rfl⟩ := List.mem_map.mp hc
    rw [h.take_upperCount (List.mem_range.mp hj)]
    have hcol : ((M.column j).map Prod.fst).Pairwise (· < ·) := by
      simpa [column, Function.comp_def] using h.rows_ascend j (List.mem_range.mp hj)
    exact hcol.sublist (List.filter_sublist.map _)

theorem upper_of_column (h : ∀ j < M.cols, ∀ e ∈ M.column j, e.1 ≤ j) : Upper M := by
  intro j hj k hk
  exact h j hj _ (List.mem_map_of_mem (f := fun k => (M.rowAt k, M.valueAt k)) hk)

theorem upper_upperTriangle (h : WellFormed M) : Upper M.upperTriangle := by
  refine upper_of_column fun j hj e he => ?_
  rw [cols_upperTriangle] at hj
  rw [column_upperTriangle h hj] at he
  simpa using (List.mem_filter.mp he).2

/-- Nothing is taken from a matrix that is upper triangular. -/
theorem upperTriangle_of_upper (h : WellFormed M) (hupper : Upper M) : M.upperTriangle = M := by
  refine (wellFormed_upperTriangle h).toLayout.ext h.toLayout rfl (cols_upperTriangle M) fun j hj => ?_
  rw [column_upperTriangle h hj]
  refine List.filter_eq_self.mpr fun e he => ?_
  obtain ⟨k, hk, rfl⟩ := List.mem_map.mp he
  exact decide_eq_true (hupper j hj k hk)

theorem finite_upperTriangle (h : WellFormed M) (hfinite : M.values.all Scalar.isFinite = true) :
    M.upperTriangle.values.all Scalar.isFinite = true := by
  refine Array.all_eq_true_iff_forall_mem.mpr fun x hx => ?_
  simp only [upperTriangle, ofColumns, List.mem_toArray, List.mem_flatMap, List.mem_map, List.mem_range] at hx
  obtain ⟨-, ⟨j, hj, rfl⟩, e, he, rfl⟩ := hx
  obtain ⟨k, hk, rfl⟩ := List.mem_map.mp (List.mem_of_mem_take he)
  have hlt := h.lt_size hj hk
  rw [show M.valueAt k = M.values[k] by simp [valueAt, Array.getD_eq_getD_getElem?, hlt]]
  exact Array.all_eq_true_iff_forall_mem.mp hfinite _ (Array.getElem_mem hlt)

theorem entry_upperTriangle {K : Type} [ExactScalar K] {M : SparseMatrix K} (h : WellFormed M) {i j : Nat}
    (hj : j < M.cols) : M.upperTriangle.entry i j = if i ≤ j then M.entry i j else 0 := by
  rw [entry, column_upperTriangle h hj]
  by_cases hij : i ≤ j
  · rw [if_pos hij, entry, sumAt, sumAt, List.filter_filter]
    refine congrArg (fun l : List (Nat × K) => (l.map Prod.snd).sum) (List.filter_congr fun e _ => ?_)
    by_cases he : e.1 = i
    · simp [he, hij]
    · simp [he]
  · rw [if_neg hij]
    refine sumAt_eq_zero fun e he heq => hij ?_
    simpa [heq] using (List.mem_filter.mp he).2

theorem symMatrix_upperTriangle {K : Type} [ExactScalar K] {M : SparseMatrix K} (h : WellFormed M) {n : Nat}
    (hn : M.cols = n) : M.upperTriangle.symMatrix n = M.symMatrix n := by
  ext i j
  simp only [symMatrix, Matrix.of_apply]
  by_cases hij : i ≤ j
  · rw [if_pos hij, if_pos hij, entry_upperTriangle h (by omega)]
    exact if_pos hij
  · rw [if_neg hij, if_neg hij, entry_upperTriangle h (by omega)]
    exact if_pos (not_le.mp hij).le

end SparseMatrix
end AugLag
